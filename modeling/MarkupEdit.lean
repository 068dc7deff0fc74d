import MarkupEdit.Files.Directory
import MarkupEdit.Main
import MarkupEdit.Markup.Scan.Bounds
import MarkupEdit.Proofs.Forest
import MarkupEdit.Proofs.Move
import MarkupEdit.Proofs.Safety
import MarkupEdit.Proofs.Timeline
import MarkupEdit.Proofs.AttributeOrder
import MarkupEdit.Proofs.AttributeEdits
import MarkupEdit.Proofs.LiteralRoundTrip
import MarkupEdit.Proofs.OffsetScan
import MarkupEdit.Proofs.OffsetLoops
import MarkupEdit.Proofs.Progress
import MarkupEdit.Proofs.ForestPatch
import MarkupEdit.Proofs.NestedForest
import MarkupEdit.Proofs.IdsKept
import MarkupEdit.Proofs.EditedTag
import MarkupEdit.Proofs.Directories
import MarkupEdit.Proofs.Invalidation
import MarkupEdit.Proofs.Actions
import MarkupEdit.Proofs.Sessions
import MarkupEdit.Proofs.Application
import MarkupEdit.Proofs.HarmlessValues
import MarkupEdit.Proofs.TagSlots
import MarkupEdit.Proofs.MarkersKept
import MarkupEdit.Proofs.AttributeRoundTrip
import MarkupEdit.Proofs.TreeSiblings
import MarkupEdit.Proofs.TextEdits
import MarkupEdit.Proofs.ClassWords
import MarkupEdit.Proofs.ClassesWrittenBack
import MarkupEdit.Proofs.StyleEdits
import MarkupEdit.Proofs.MergedParts
import MarkupEdit.Proofs.LiteralsWrittenBack
import MarkupEdit.Proofs.StylesAsRead
import MarkupEdit.Proofs.Locations
import MarkupEdit.Proofs.LiteralForms
import MarkupEdit.Proofs.TagsRead
import MarkupEdit.Proofs.Insertion
import MarkupEdit.Proofs.Stacks
import MarkupEdit.Proofs.CommentBlocks
import MarkupEdit.Proofs.ScriptRoundTrip
