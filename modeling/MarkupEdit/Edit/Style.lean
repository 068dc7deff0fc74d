import MarkupEdit.Markup.Style
import MarkupEdit.Edit.Tag

/-!
Changes to the inline style of an element, one declaration at a time.
-/

namespace MarkupEdit.Edit

def styleName : Bytes := utf8 "style"

/-- A value for a declaration: trimmed, without the semicolons that it ends in. -/
def declarationValue (value : Bytes) : Bytes :=
  (value.trim.reverse.dropWhile (· == Byte.semicolon)).reverse

def setStyle (text id property value : Bytes) : Plan :=
  let property := property.trim
  let value := declarationValue value
  if Style.isPropertyName property = false then .error (.invalidStyleProperty property)
  else do
    let tag ← findTag text id
    match tag.attribute? text styleName with
    | none =>
      let style := (Style.Declaration.property property value).format
      pure [tag.insertAttribute text (writeAttribute styleName style)]
    | some a =>
      let put (encoding : Encoding) (current : Bytes) : Patch :=
        a.replaceValue (encoding.format
          (Style.format (Style.set property value (Style.parse current)) (Style.isClosed current)))
      match a.classify with
      | .literal encoding current => pure [put encoding current]
      | .bare => pure [put .doubleQuoted []]
      | .binding _ => .error (.dynamicBinding id styleName)

/-- Removes the declarations of a property from the style of an element; a style that is left
empty goes away. -/
def removeStyle (text id property : Bytes) : Plan := do
  let property := property.trim
  let tag ← findTag text id
  match tag.attribute? text styleName with
  | none => pure []
  | some a =>
    match a.classify with
    | .bare => pure []
    | .binding _ => .error (.dynamicBinding id styleName)
    | .literal encoding current =>
      let declarations := Style.parse current
      let kept := Style.remove property declarations
      if kept.length = declarations.length then pure []
      else if kept.isEmpty then pure [tag.removeAttribute text a]
      else pure [a.replaceValue (encoding.format (Style.format kept (Style.isClosed current)))]

end MarkupEdit.Edit
