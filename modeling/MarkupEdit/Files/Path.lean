/-!
Written paths: names between slashes.
-/

namespace MarkupEdit

abbrev FilePath := List String

def consChar (c : Char) : List String → List String
  | [] => [String.singleton c]
  | part :: rest => (String.singleton c ++ part) :: rest

/-- The parts of a written path between its slashes, empty ones included. -/
def pathParts (path : String) : List String :=
  path.toList.foldr (fun c parts => if c = '/' then "" :: parts else consChar c parts) [""]

end MarkupEdit
