import ClassAudit.ClassFile.Descriptor

/-! # Generic signatures

    The syntax trees of generic signatures, the text of a tree, and the class types that it
    refers to. A nested class of a generic class is a chain of names, each with its own type
    arguments; the reference to it joins the names with dollar signs.
-/

namespace ClassAudit.Signature

/-! ### Trees -/

/-- How a type argument restricts its type. -/
inductive Variance where
  | exactly
  | subtypes
  | supertypes

mutual

inductive RefType where
  | object (type : ClassType)
  | typeVar (name : List Char)
  | baseArray (element : BaseType)
  | array (element : RefType)

/-- A class with its type arguments, and the chain of classes nested in it. -/
inductive ClassType where
  | mk (name : List Char) (args : Args) (inner : Inner)

/-- The type arguments of a class, which may be left out. -/
inductive Args where
  | absent
  | given (items : ArgList)

inductive ArgList where
  | nil
  | any (rest : ArgList)
  | cons (variance : Variance) (type : RefType) (rest : ArgList)

inductive Inner where
  | nil
  | cons (name : List Char) (args : Args) (rest : Inner)

end

inductive JavaType where
  | base (type : BaseType)
  | ref (type : RefType)

structure TypeParam where
  name : List Char
  classBound : Option RefType
  interfaceBounds : List RefType

/-- The generic type of a class. The list of type parameters may be left out. -/
structure OfClass where
  typeParams : Option (List TypeParam)
  superclass : ClassType
  interfaces : List ClassType

inductive Thrown where
  | typeVar (name : List Char)
  | object (type : ClassType)

/-- The generic type of a method. The list of type parameters may be left out, and a method
    without result has none. -/
structure OfMethod where
  typeParams : Option (List TypeParam)
  parameters : List JavaType
  result : Option JavaType
  throws : List Thrown

/-! ### Text -/

def Variance.sign : Variance → List Char
  | exactly => []
  | subtypes => ['+']
  | supertypes => ['-']

mutual

def RefType.text : RefType → List Char
  | .object type => type.text
  | .typeVar name => 'T' :: name ++ [';']
  | .baseArray element => ['[', element.letter]
  | .array element => '[' :: element.text

def ClassType.text : ClassType → List Char
  | .mk name args inner => 'L' :: name ++ args.text ++ inner.text ++ [';']

def Args.text : Args → List Char
  | .absent => []
  | .given items => '<' :: items.text ++ ['>']

def ArgList.text : ArgList → List Char
  | .nil => []
  | .any rest => '*' :: rest.text
  | .cons variance type rest => variance.sign ++ type.text ++ rest.text

def Inner.text : Inner → List Char
  | .nil => []
  | .cons name args rest => '.' :: name ++ args.text ++ rest.text

end

def JavaType.text : JavaType → List Char
  | base type => [type.letter]
  | ref type => type.text

def TypeParam.text (p : TypeParam) : List Char :=
  p.name ++ ':' :: (match p.classBound with
    | none => []
    | some bound => bound.text) ++
    p.interfaceBounds.flatMap fun bound => ':' :: bound.text

def typeParamsText : Option (List TypeParam) → List Char
  | none => []
  | some params => '<' :: params.flatMap TypeParam.text ++ ['>']

def OfClass.text (s : OfClass) : List Char :=
  typeParamsText s.typeParams ++ s.superclass.text ++ s.interfaces.flatMap ClassType.text

def Thrown.text : Thrown → List Char
  | typeVar name => '^' :: 'T' :: name ++ [';']
  | object type => '^' :: type.text

def OfMethod.text (s : OfMethod) : List Char :=
  typeParamsText s.typeParams ++ '(' :: s.parameters.flatMap JavaType.text ++ ')' ::
    (match s.result with
      | none => ['V']
      | some type => type.text) ++
    s.throws.flatMap Thrown.text

/-! ### References -/

inductive Position where
  | bound
  | superclass
  | interface
  | parameter
  | result
  | throws
  | typeArgument
  | field

def Position.toNat : Position → Nat
  | bound => 0
  | superclass => 1
  | interface => 2
  | parameter => 3
  | result => 4
  | throws => 5
  | typeArgument => 6
  | field => 7

structure Ref where
  position : Position
  /-- The internal name; names of nested classes are joined with dollar signs. -/
  name : String

mutual

/-- The classes that a reference type refers to, from left to right. -/
def RefType.refs (position : Position) : RefType → List Ref
  | .object type => type.refs position
  | .typeVar _ => []
  | .baseArray _ => []
  | .array element => element.refs position

def ClassType.refs (position : Position) : ClassType → List Ref
  | .mk name args inner =>
    ⟨position, String.ofList name⟩ :: args.refs ++ inner.refs position (String.ofList name)

def Args.refs : Args → List Ref
  | .absent => []
  | .given items => items.refs

def ArgList.refs : ArgList → List Ref
  | .nil => []
  | .any rest => rest.refs
  | .cons _ type rest => type.refs .typeArgument ++ rest.refs

/-- The classes that a chain nested in `outer` refers to. -/
def Inner.refs (position : Position) (outer : String) : Inner → List Ref
  | .nil => []
  | .cons name args rest =>
    let full := outer ++ "$" ++ String.ofList name
    ⟨position, full⟩ :: args.refs ++ rest.refs position full

end

def JavaType.refs (position : Position) : JavaType → List Ref
  | base _ => []
  | ref type => type.refs position

def TypeParam.refs (p : TypeParam) : List Ref :=
  (match p.classBound with
    | none => []
    | some bound => bound.refs .bound) ++
    p.interfaceBounds.flatMap (RefType.refs .bound)

def typeParamsRefs : Option (List TypeParam) → List Ref
  | none => []
  | some params => params.flatMap TypeParam.refs

def OfClass.refs (s : OfClass) : List Ref :=
  typeParamsRefs s.typeParams ++ s.superclass.refs .superclass ++
    s.interfaces.flatMap (ClassType.refs .interface)

def Thrown.refs : Thrown → List Ref
  | typeVar _ => []
  | object type => type.refs .throws

def OfMethod.refs (s : OfMethod) : List Ref :=
  typeParamsRefs s.typeParams ++ s.parameters.flatMap (JavaType.refs .parameter) ++
    (match s.result with
      | none => []
      | some type => type.refs .result) ++
    s.throws.flatMap Thrown.refs

end ClassAudit.Signature
