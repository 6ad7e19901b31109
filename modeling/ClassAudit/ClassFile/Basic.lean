import ClassAudit.ClassFile.Annotations
import ClassAudit.ClassFile.Code

/-! # Class files

    The record of a compiled class: its names and flags, its members with their code, and its
    annotations. `ClassFile.parse` reads it from bytes and accepts no byte too few or too many.
-/

namespace ClassAudit

structure Field where
  access : Nat
  name : String
  descriptor : String
  /-- The generic type, empty if there is none. -/
  signature : String
  annotations : List AnnotationInfo

structure Method where
  access : Nat
  name : String
  descriptor : String
  signature : String
  exceptions : List String
  /-- The default value first, then the annotations of the method, then those of its
      parameters. -/
  annotations : List AnnotationInfo
  /-- Abstract and native methods have no code. -/
  code : Option Code

/-- A compiled class. Names are internal names, with slashes between packages. -/
structure ClassFile where
  minorVersion : Nat
  majorVersion : Nat
  access : Nat
  name : String
  /-- The superclass, empty if there is none. -/
  superName : String
  interfaces : List String
  signature : String
  /-- The source file, empty if it is not recorded. -/
  sourceFile : String
  annotations : List AnnotationInfo
  fields : List Field
  methods : List Method

/-! ### Members -/

structure MemberHeader where
  access : Nat
  name : String
  descriptor : String

def MemberHeader.read (pool : ConstantPool) : Reader MemberHeader := do
  let access ← Reader.u2
  let name ← Reader.u2
  let descriptor ← Reader.u2
  return ⟨access, ← pool.utf8 name, ← pool.utf8 descriptor⟩

namespace Field

structure Attributes where
  signature : String
  annotations : List AnnotationInfo

/-- Add the body of an attribute. The last generic type counts; annotations add up. -/
def Attributes.add (pool : ConstantPool) (seen : Attributes) (name : String)
    (body : List UInt8) : Except Malformed Attributes :=
  match name with
  | "Signature" => do return { seen with signature := ← Attribute.text pool body }
  | "RuntimeVisibleAnnotations" => do
    let more ← AnnotationInfo.ofAttribute pool .fieldDecl true body
    return { seen with annotations := seen.annotations ++ more }
  | "RuntimeInvisibleAnnotations" => do
    let more ← AnnotationInfo.ofAttribute pool .fieldDecl false body
    return { seen with annotations := seen.annotations ++ more }
  | _ => return seen

def read (pool : ConstantPool) : Reader Field := do
  let header ← Reader.inside .fieldHeader (MemberHeader.read pool)
  let seen ← Reader.inside (.field header.name)
    (Attribute.foldTable pool (Attributes.add pool) ⟨"", []⟩)
  return { access := header.access, name := header.name, descriptor := header.descriptor
           signature := seen.signature, annotations := seen.annotations }

end Field

namespace Method

structure Attributes where
  code : Option Code
  signature : String
  exceptions : List String
  defaults : List AnnotationInfo
  annotations : List AnnotationInfo
  parameterAnnotations : List AnnotationInfo

/-- Add the body of an attribute. Of code, generic type and exceptions the last counts;
    annotations and default values add up. -/
def Attributes.add (pool : ConstantPool) (seen : Attributes) (name : String)
    (body : List UInt8) : Except Malformed Attributes :=
  match name with
  | "Code" => do return { seen with code := some (← (Code.read pool).on body) }
  | "Signature" => do return { seen with signature := ← Attribute.text pool body }
  | "Exceptions" => do return { seen with exceptions := ← Attribute.classNames pool body }
  | "AnnotationDefault" => do
    let value ← AnnotationInfo.ofDefaultAttribute pool body
    return { seen with defaults := seen.defaults ++ [value] }
  | "RuntimeVisibleAnnotations" => do
    let more ← AnnotationInfo.ofAttribute pool .methodDecl true body
    return { seen with annotations := seen.annotations ++ more }
  | "RuntimeInvisibleAnnotations" => do
    let more ← AnnotationInfo.ofAttribute pool .methodDecl false body
    return { seen with annotations := seen.annotations ++ more }
  | "RuntimeVisibleParameterAnnotations" => do
    let more ← AnnotationInfo.ofParameterAttribute pool true body
    return { seen with parameterAnnotations := seen.parameterAnnotations ++ more }
  | "RuntimeInvisibleParameterAnnotations" => do
    let more ← AnnotationInfo.ofParameterAttribute pool false body
    return { seen with parameterAnnotations := seen.parameterAnnotations ++ more }
  | _ => return seen

def read (pool : ConstantPool) : Reader Method := do
  let header ← Reader.inside .methodHeader (MemberHeader.read pool)
  let seen ← Reader.inside (.method header.name header.descriptor)
    (Attribute.foldTable pool (Attributes.add pool) ⟨none, "", [], [], [], []⟩)
  return { access := header.access, name := header.name, descriptor := header.descriptor
           signature := seen.signature, exceptions := seen.exceptions
           annotations := seen.defaults ++ seen.annotations ++ seen.parameterAnnotations
           code := seen.code }

end Method

/-! ### Classes -/

namespace ClassFile

structure Attributes where
  sourceFile : String
  signature : String
  annotations : List AnnotationInfo

/-- Add the body of an attribute. Of source file and generic type the last counts; annotations
    add up. -/
def Attributes.add (pool : ConstantPool) (seen : Attributes) (name : String)
    (body : List UInt8) : Except Malformed Attributes :=
  match name with
  | "SourceFile" => do return { seen with sourceFile := ← Attribute.text pool body }
  | "Signature" => do return { seen with signature := ← Attribute.text pool body }
  | "RuntimeVisibleAnnotations" => do
    let more ← AnnotationInfo.ofAttribute pool .classDecl true body
    return { seen with annotations := seen.annotations ++ more }
  | "RuntimeInvisibleAnnotations" => do
    let more ← AnnotationInfo.ofAttribute pool .classDecl false body
    return { seen with annotations := seen.annotations ++ more }
  | _ => return seen

def magic : Nat := 0xCAFEBABE

def read : Reader ClassFile := do
  let found ← Reader.u4
  if found ≠ magic then Reader.fail (.badMagic found)
  let minorVersion ← Reader.u2
  let majorVersion ← Reader.u2
  let pool ← ConstantPool.read
  let access ← Reader.u2
  let name ← FilePart.thisClass.locate (pool.className (← Reader.u2))
  let superName ← FilePart.superClass.locate (pool.optionalClassName (← Reader.u2))
  let interfaces ← Reader.table do
    FilePart.interfaces.locate (pool.className (← Reader.u2))
  let fields ← Reader.table (Field.read pool)
  let methods ← Reader.table (Method.read pool)
  let seen ← Attribute.foldTable pool (Attributes.add pool) ⟨"", "", []⟩
  return { minorVersion, majorVersion, access, name, superName, interfaces
           signature := seen.signature, sourceFile := seen.sourceFile
           annotations := seen.annotations, fields, methods }

/-- The class that a byte string holds, with no byte after it. -/
def parse (data : List UInt8) : Except Malformed ClassFile :=
  Reader.on (do
    let c ← read
    match ← Reader.remaining with
    | 0 => return c
    | n => Reader.fail (.trailingBytes n)) data

end ClassFile

end ClassAudit
