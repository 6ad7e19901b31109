import ClassAudit.ClassFile.Descriptor
import ClassAudit.Text.Blank

/-! # Call targets

    A method as it is written in source code: the class that declares it, and its signature with
    result type, name and parameter types. A target written by hand is normalised, so that
    spacing does not matter when it is compared with a target found in a class.
-/

namespace ClassAudit

structure CallTarget where
  className : String
  /-- The result type, the name and the parameter types. -/
  signature : String
  deriving DecidableEq

namespace CallTarget

/-! ### Targets written by hand -/

def dropBefore (c : Char) : List Char → List Char
  | [] => []
  | [d] => [d]
  | d :: e :: rest =>
    if d = ' ' ∧ e = c then dropBefore c (e :: rest) else d :: dropBefore c (e :: rest)

def dropAfter (c : Char) : List Char → List Char
  | [] => []
  | [d] => [d]
  | d :: e :: rest =>
    if d = c ∧ e = ' ' then d :: dropAfter c rest else d :: dropAfter c (e :: rest)

/-- A signature with single spaces for white space, and without the spaces around brackets and
    commas. -/
def normaliseChars (cs : List Char) : List Char :=
  let spaced := [' '].intercalate (Text.words cs)
  let spaced := dropBefore '(' spaced
  let spaced := dropAfter '(' spaced
  let spaced := dropBefore ')' spaced
  let spaced := dropBefore ',' spaced
  let spaced := dropAfter ',' spaced
  let spaced := dropBefore '[' spaced
  let spaced := dropAfter '[' spaced
  dropBefore ']' spaced

def ofText (className signature : String) : CallTarget :=
  ⟨Text.trim className, String.ofList (normaliseChars signature.toList)⟩

/-! ### Targets found in classes -/

def ofMember (owner name descriptor : String) : Except DescriptorError CallTarget := do
  let type ← Descriptor.parseMethod descriptor
  return ⟨ClassName.binary owner, type.sourceSignature name⟩

/-! ### Text and order -/

def text (t : CallTarget) : String :=
  "Class='" ++ t.className ++ ", Method='" ++ t.signature ++ "'"

def compare (a b : CallTarget) : Ordering :=
  (Ord.compare a.className b.className).then (Ord.compare a.signature b.signature)

end CallTarget

end ClassAudit
