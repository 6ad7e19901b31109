import ClassAudit.ClassFile.Name
import ClassAudit.Text.Quoted

/-! # Descriptors

    A descriptor writes the type of a field, or the parameter and result types of a method. It is
    read into a tree, from which the type's name in source code follows. `mentioned` finds class
    names in a descriptor without reading it.
-/

namespace ClassAudit

inductive BaseType where
  | byte
  | char
  | double
  | float
  | int
  | long
  | short
  | boolean
  deriving DecidableEq

namespace BaseType

def letter : BaseType → Char
  | byte => 'B'
  | char => 'C'
  | double => 'D'
  | float => 'F'
  | int => 'I'
  | long => 'J'
  | short => 'S'
  | boolean => 'Z'

def ofLetter? : Char → Option BaseType
  | 'B' => some byte
  | 'C' => some char
  | 'D' => some double
  | 'F' => some float
  | 'I' => some int
  | 'J' => some long
  | 'S' => some short
  | 'Z' => some boolean
  | _ => none

def word : BaseType → String
  | byte => "byte"
  | char => "char"
  | double => "double"
  | float => "float"
  | int => "int"
  | long => "long"
  | short => "short"
  | boolean => "boolean"

end BaseType

/-- The type of an array's elements, or of a value that is no array. -/
inductive ElementType where
  | base (type : BaseType)
  | object (name : List Char)

structure FieldType where
  dims : Nat
  element : ElementType

structure MethodType where
  parameters : List FieldType
  result : Option FieldType

/-! ### Text of types -/

namespace FieldType

def text (t : FieldType) : List Char :=
  List.replicate t.dims '[' ++
    match t.element with
    | .base type => [type.letter]
    | .object name => 'L' :: name ++ [';']

/-- The name of a type in source code: dots for slashes, and a pair of brackets for each
    dimension. -/
def sourceName (t : FieldType) : String :=
  (match t.element with
    | .base type => type.word
    | .object name => ClassName.binary (String.ofList name)) ++
    String.join (List.replicate t.dims "[]")

def className? (t : FieldType) : Option (List Char) :=
  match t.element with
  | .base _ => none
  | .object name => some name

end FieldType

namespace MethodType

def text (t : MethodType) : List Char :=
  '(' :: t.parameters.flatMap FieldType.text ++ ')' ::
    match t.result with
    | none => ['V']
    | some type => type.text

def resultName (t : MethodType) : String :=
  match t.result with
  | none => "void"
  | some type => type.sourceName

def sourceSignature (t : MethodType) (name : String) : String :=
  t.resultName ++ " " ++ name ++ "(" ++
    ",".intercalate (t.parameters.map FieldType.sourceName) ++ ")"

end MethodType

/-! ### Reading descriptors -/

namespace Descriptor

inductive Fault where
  | truncated
  | badClass
  /-- No type starts with this byte. -/
  | badType (byte : UInt8)
  | trailing
  | noOpening
  | noClosing

def firstByte (c : Char) : UInt8 :=
  (String.utf8EncodeChar c).headD 0

def readElement : List Char → Except Fault (ElementType × List Char)
  | [] => .error .truncated
  | 'L' :: cs =>
    match cs.takeWhile (· ≠ ';'), cs.dropWhile (· ≠ ';') with
    | _, [] => .error .badClass
    | [], _ => .error .badClass
    | name, _ :: rest => .ok (.object name, rest)
  | c :: cs =>
    match BaseType.ofLetter? c with
    | some type => .ok (.base type, cs)
    | none => .error (.badType (firstByte c))

def readType (cs : List Char) : Except Fault (FieldType × List Char) := do
  let (element, rest) ← readElement (cs.dropWhile (· = '['))
  return (⟨(cs.takeWhile (· = '[')).length, element⟩, rest)

theorem length_lt_of_readElement {cs rest : List Char} {t : ElementType}
    (h : readElement cs = .ok (t, rest)) : rest.length < cs.length := by
  unfold readElement at h
  split at h
  · simp at h
  · rename_i cs
    split at h
    · simp at h
    · simp at h
    · rename_i name c rest' hrest
      simp only [Except.ok.injEq, Prod.mk.injEq] at h
      obtain ⟨-, rfl⟩ := h
      have hlen := (List.dropWhile_suffix (l := cs) (· ≠ ';')).length_le
      simp_all
      omega
  · rename_i c cs _
    split at h
    · simp only [Except.ok.injEq, Prod.mk.injEq] at h
      obtain ⟨-, rfl⟩ := h
      simp
    · simp at h

theorem length_lt_of_readType {cs rest : List Char} {t : FieldType}
    (h : readType cs = .ok (t, rest)) : rest.length < cs.length := by
  unfold readType at h
  cases helem : readElement (cs.dropWhile (· = '[')) with
  | error e => simp [helem, bind, Except.bind] at h
  | ok r =>
    obtain ⟨element, rest'⟩ := r
    simp only [helem, bind, Except.bind, pure, Except.pure, Except.ok.injEq, Prod.mk.injEq] at h
    obtain ⟨-, rfl⟩ := h
    have hlt := length_lt_of_readElement helem
    have hle := (List.dropWhile_suffix (l := cs) (· = '[')).length_le
    omega

def readParameters (cs : List Char) : Except Fault (List FieldType × List Char) :=
  match cs with
  | [] => .error .noClosing
  | ')' :: rest => .ok ([], rest)
  | cs =>
    match h : readType cs with
    | .error e => .error e
    | .ok (type, rest) =>
      have := length_lt_of_readType h
      (readParameters rest).map fun (types, rest) => (type :: types, rest)
termination_by cs.length

def readResult : List Char → Except Fault (Option FieldType × List Char)
  | 'V' :: rest => .ok (none, rest)
  | cs => (readType cs).map fun (type, rest) => (some type, rest)

def fieldType (cs : List Char) : Except Fault FieldType := do
  match ← readType cs with
  | (type, []) => return type
  | _ => throw .trailing

def methodType : List Char → Except Fault MethodType
  | '(' :: cs => do
    let (parameters, rest) ← readParameters cs
    match ← readResult rest with
    | (result, []) => return ⟨parameters, result⟩
    | _ => throw .trailing
  | _ => throw .noOpening

theorem length_lt_of_dropWhile {cs after : List Char} {c : Char}
    (h : cs.dropWhile (· ≠ ';') = c :: after) : after.length < cs.length := by
  have hle := (List.dropWhile_suffix (l := cs) (· ≠ ';')).length_le
  simp only [h, List.length_cons] at hle
  omega

/-- The names between an `L` and the next semicolon, from left to right. No grammar is followed,
    so that the names of any text with descriptors in it are found. -/
def mentioned (cs : List Char) : List (List Char) :=
  match cs with
  | [] => []
  | c :: rest =>
    if c = 'L' then
      match h : rest.dropWhile (· ≠ ';') with
      | [] => []
      | _ :: after =>
        have := length_lt_of_dropWhile h
        rest.takeWhile (· ≠ ';') :: mentioned after
    else mentioned rest
termination_by cs.length

end Descriptor

structure DescriptorError where
  fault : Descriptor.Fault
  descriptor : String

def DescriptorError.message (e : DescriptorError) : String :=
  let text := Text.quote e.descriptor
  "malformed class file: " ++
    match e.fault with
    | .truncated => "truncated descriptor " ++ text
    | .badClass => "bad class type in descriptor " ++ text
    | .badType byte => "bad type " ++ Text.quoteByte byte ++ " in descriptor " ++ text
    | .trailing => "trailing characters in descriptor " ++ text
    | .noOpening => "method descriptor " ++ text ++ " does not start with '('"
    | .noClosing => "method descriptor " ++ text ++ " has no ')'"

namespace Descriptor

def parseField (descriptor : String) : Except DescriptorError FieldType :=
  (fieldType descriptor.toList).mapError (⟨·, descriptor⟩)

def parseMethod (descriptor : String) : Except DescriptorError MethodType :=
  (methodType descriptor.toList).mapError (⟨·, descriptor⟩)

def classNames (descriptor : String) : List String :=
  (mentioned descriptor.toList).map String.ofList

def ofTexts (result : String) (parameters : List String) : String :=
  "(" ++ String.join parameters ++ ")" ++ result

end Descriptor

end ClassAudit
