/-! # Texts with separators -/

namespace ClassAudit.Text

/-- A list cut at each occurrence of a separator. -/
def splitAtChar (sep : Char) : List Char → List (List Char)
  | [] => [[]]
  | c :: cs =>
    if c == sep then [] :: splitAtChar sep cs
    else
      match splitAtChar sep cs with
      | [] => [[c]]
      | part :: parts => (c :: part) :: parts

def split (sep : Char) (s : String) : List String :=
  (splitAtChar sep s.toList).map String.ofList

end ClassAudit.Text
