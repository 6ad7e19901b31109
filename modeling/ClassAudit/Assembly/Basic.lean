import ClassAudit.Assembly.Annotations
import ClassAudit.Assembly.Code

/-! # Assembling classes

    A class description and the bytes of its class file. Only what an audit reads is written.
-/

namespace ClassAudit.Assembly

structure Field where
  access : Int
  name : String
  descriptor : String
  /-- The generic type, empty for none. -/
  signature : String
  annotations : List AnnotationSpec

structure Method where
  access : Int
  name : String
  descriptor : String
  signature : String
  exceptions : List String
  annotations : List AnnotationSpec
  paramAnnotations : List (List AnnotationSpec)
  default : Option Value
  code : Option Code

structure Class where
  access : Int
  name : String
  /-- The superclass; empty for the root of all classes, and a dash for none at all. -/
  superName : String
  interfaces : List String
  signature : String
  /-- The source file, empty for none. -/
  sourceFile : String
  annotations : List AnnotationSpec
  fields : List Field
  methods : List Method

def signatureAttribute (signature : String) : Assembler (List (String × List UInt8)) := do
  if signature = "" then return []
  else return [("Signature", u2 (← Assembler.utf8 signature))]

def Field.write (f : Field) : Assembler (List UInt8) := do
  let name ← Assembler.utf8 f.name
  let descriptor ← Assembler.utf8 f.descriptor
  let signature ← signatureAttribute f.signature
  let annotations ← AnnotationSpec.attributes f.annotations
  let attributes ← Assembler.attributes (signature ++ annotations)
  return u2 f.access ++ u2 name ++ u2 descriptor ++ attributes

namespace Method

def codeAttribute (m : Method) : Assembler (List (String × List UInt8)) :=
  match m.code with
  | none => return []
  | some code => return [("Code", ← code.write)]

def exceptionsAttribute (m : Method) : Assembler (List (String × List UInt8)) :=
  match m.exceptions with
  | [] => return []
  | names =>
    return [("Exceptions", ← Assembler.table (fun name => return u2 (← Assembler.classInfo name))
      names)]

def defaultAttribute (m : Method) : Assembler (List (String × List UInt8)) :=
  match m.default with
  | none => return []
  | some value => return [("AnnotationDefault", ← value.write)]

def parameterAttribute (m : Method) : Assembler (List (String × List UInt8)) :=
  match m.paramAnnotations with
  | [] => return []
  | params => do
    let tables ← Assembler.each (Assembler.table AnnotationSpec.write) params
    return [("RuntimeVisibleParameterAnnotations", byte params.length :: tables)]

def write (m : Method) : Assembler (List UInt8) := do
  let name ← Assembler.utf8 m.name
  let descriptor ← Assembler.utf8 m.descriptor
  let code ← m.codeAttribute
  let signature ← signatureAttribute m.signature
  let exceptions ← m.exceptionsAttribute
  let default ← m.defaultAttribute
  let annotations ← AnnotationSpec.attributes m.annotations
  let parameters ← m.parameterAttribute
  let attributes ← Assembler.attributes
    (code ++ signature ++ exceptions ++ default ++ annotations ++ parameters)
  return u2 m.access ++ u2 name ++ u2 descriptor ++ attributes

end Method

namespace Class

def superSlot (c : Class) : Assembler Nat :=
  match c.superName with
  | "" => Assembler.classInfo "java/lang/Object"
  | "-" => return 0
  | name => Assembler.classInfo name

def sourceAttribute (c : Class) : Assembler (List (String × List UInt8)) := do
  if c.sourceFile = "" then return []
  else return [("SourceFile", u2 (← Assembler.utf8 c.sourceFile))]

def writeBody (c : Class) : Assembler (List UInt8) := do
  let name ← Assembler.classInfo c.name
  let superName ← c.superSlot
  let interfaces ← Assembler.table (fun name => return u2 (← Assembler.classInfo name))
    c.interfaces
  let fields ← Assembler.table Field.write c.fields
  let methods ← Assembler.table Method.write c.methods
  let source ← c.sourceAttribute
  let signature ← signatureAttribute c.signature
  let annotations ← AnnotationSpec.attributes c.annotations
  let attributes ← Assembler.attributes (source ++ signature ++ annotations)
  return u2 c.access ++ u2 name ++ u2 superName ++ interfaces ++ fields ++ methods ++ attributes

/-- The class file of a class. Its format version is 52.0. -/
def bytes (c : Class) : List UInt8 :=
  let (body, pool) := c.writeBody.run Pool.empty
  u4 0xCAFEBABE ++ u2 0 ++ u2 52 ++ u2 pool.next ++ pool.bytes ++ body

/-- The end of each method's code, for the methods that have code. -/
def endPcs (c : Class) : List Int :=
  c.methods.filterMap fun m => m.code.map Code.endPc

end Class

end ClassAudit.Assembly
