/-!
What can be wrong with a text that is to be read as JSON of a certain form.
-/

namespace MarkupEdit.Json

inductive Fault where
  /-- The text is not JSON. -/
  | malformed
  /-- The text is JSON of another form. -/
  | mismatched
  deriving DecidableEq, Repr

end MarkupEdit.Json
