import ClassAudit.ClassFile.ConstantPool

/-! # Annotations

    An annotation of a class or member, with the descriptors that its element values refer to.
    Element values nest; a value that contains others is longer than each of them, so the number
    of bytes at hand bounds the depth of reading.
-/

namespace ClassAudit

inductive AnnotationTarget where
  | classDecl
  | fieldDecl
  | methodDecl
  | parameter
  | defaultValue

namespace AnnotationTarget

def all : List AnnotationTarget :=
  [classDecl, fieldDecl, methodDecl, parameter, defaultValue]

def name : AnnotationTarget → String
  | classDecl => "Class"
  | fieldDecl => "Field"
  | methodDecl => "Method"
  | parameter => "Parameter"
  | defaultValue => "Default"

/-- The name of the target with a number; a number without a target is shown as such. -/
def nameOfNumber (n : Nat) : String :=
  match all[n]? with
  | some target => target.name
  | none => "AnnotationTarget(" ++ toString n ++ ")"

end AnnotationTarget

/-- One annotation, or the default value of an annotation element. -/
structure AnnotationInfo where
  target : AnnotationTarget
  /-- The index of the annotated parameter, 0 for other targets. -/
  parameter : Nat
  /-- The type of the annotation. A default value has none. -/
  descriptor : String
  visible : Bool
  /-- The descriptors of the enum types, class literals and nested annotations among the element
      values, in order; a nested annotation comes after what its elements refer to. -/
  refs : List String

namespace AnnotationInfo

def isConstantTag (tag : UInt8) : Bool :=
  "BCDFIJSZs".toList.any fun c => c.toNat == tag.toNat

/-- The type of an annotation, and the descriptors of its element values in front of those that
    have been read before, given a reader of element values. -/
def readBody (pool : ConstantPool) (value : List String → Reader (List String))
    (refs : List String) : Reader (String × List String) := do
  let descriptor ← pool.utf8 (← Reader.u2)
  let refs ← Reader.foldTable (fun refs => do
    Reader.skip 2
    value refs) refs
  return (descriptor, refs)

/-- The descriptors that an element value refers to, the last one first, in front of those that have
    been read before. The values inside it are read with less fuel; without fuel there must be no
    byte left. -/
def readValue (pool : ConstantPool) : Nat → List String → Reader (List String)
  | 0, refs => do
    let _ ← Reader.u1
    return refs
  | fuel + 1, refs => do
    let tag ← Reader.u1
    if isConstantTag tag then
      Reader.skip 2
      return refs
    else if tag.toNat = 'e'.toNat then
      let descriptor ← pool.utf8 (← Reader.u2)
      Reader.skip 2
      return descriptor :: refs
    else if tag.toNat = 'c'.toNat then
      return (← pool.utf8 (← Reader.u2)) :: refs
    else if tag.toNat = '@'.toNat then
      let (descriptor, refs) ← readBody pool (readValue pool fuel) refs
      return descriptor :: refs
    else if tag.toNat = '['.toNat then
      Reader.foldTable (readValue pool fuel) refs
    else Reader.fail (.badElementTag tag)

def readTable (pool : ConstantPool) (target : AnnotationTarget) (visible : Bool)
    (parameter fuel : Nat) : Reader (List AnnotationInfo) :=
  Reader.table do
    let (descriptor, refs) ← readBody pool (readValue pool fuel) []
    return { target, parameter, descriptor, visible, refs := refs.reverse }

def ofAttribute (pool : ConstantPool) (target : AnnotationTarget) (visible : Bool)
    (body : List UInt8) : Except Malformed (List AnnotationInfo) :=
  (readTable pool target visible 0 body.length).on body

def readParameters (pool : ConstantPool) (visible : Bool) (fuel : Nat) :
    (count first : Nat) → Reader (List AnnotationInfo)
  | 0, _ => return []
  | count + 1, first => do
    let annotations ← Reader.inside (.parameter first)
      (readTable pool .parameter visible first fuel)
    return annotations ++ (← readParameters pool visible fuel count (first + 1))

def ofParameterAttribute (pool : ConstantPool) (visible : Bool) (body : List UInt8) :
    Except Malformed (List AnnotationInfo) :=
  Reader.on (do readParameters pool visible body.length (← Reader.u1).toNat 0) body

def ofDefaultAttribute (pool : ConstantPool) (body : List UInt8) :
    Except Malformed AnnotationInfo := do
  let refs ← (readValue pool body.length []).on body
  return { target := .defaultValue, parameter := 0, descriptor := "", visible := true,
           refs := refs.reverse }

end AnnotationInfo

end ClassAudit
