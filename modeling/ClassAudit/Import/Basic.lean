import ClassAudit.ClassFile.Event
import ClassAudit.ClassFile.Signature.Parse
import ClassAudit.Text.SortedSet

/-! # Imported packages

    The packages that a class refers to anywhere: in its supertypes, in the types of its members,
    in annotations, in instructions, in catch types and in the generic types of local variables.
-/

namespace ClassAudit

/-- The packages that one class imports. Package names have dots. -/
structure ClassImports where
  className : String
  /-- The package of the class, empty for the default package. -/
  package : String
  /-- The imported packages; the class's own package is among them if the class refers to it. -/
  imports : NameSet

structure ImportError where
  className : String
  error : SignatureError

def ImportError.message (e : ImportError) : String :=
  "imports: " ++ e.className ++ ": " ++ e.error.message

namespace ClassImports

/-! ### Names and packages -/

/-- The package of a class that is no array, in front of those found before. The default package
    does not count. -/
def addPackage (found : List String) (name : List Char) : List String :=
  match ClassName.packageChars name with
  | [] => found
  | package => ClassName.binary (String.ofList package) :: found

/-- The package of a class that a descriptor mentions. Such a name holds no semicolon, so that an
    array among them mentions no class. -/
def addMentioned (found : List String) : List Char → List String
  | '[' :: _ => found
  | name => addPackage found name

def addDescriptor (found : List String) (descriptor : List Char) : List String :=
  (Descriptor.mentioned descriptor).foldl addMentioned found

/-- The package of a class. The name of an array class is a descriptor. -/
def addName (found : List String) (name : String) : List String :=
  match name.toList with
  | '[' :: rest => addDescriptor found ('[' :: rest)
  | name => addPackage found name

def addNames (found names : List String) : List String :=
  names.foldl addName found

def addRefs (found : List String) (refs : List Signature.Ref) : List String :=
  addNames found (refs.map Signature.Ref.name)

/-! ### Walking through a class -/

/-- The packages that an event refers to, in front of those found before. -/
def step (found : List String) : Event → Except SignatureError (List String)
  | .classDeclared _ _ _ signature superName interfaces =>
    if signature = "" then return addNames (addName found superName) interfaces
    else return addRefs found (← Signature.parseClass signature).refs
  | .fieldDeclared _ _ descriptor signature =>
    if signature = "" then return addDescriptor found descriptor.toList
    else return addRefs found ((← Signature.parseField signature).refs .field)
  | .methodDeclared _ _ descriptor signature exceptions =>
    if signature = "" then return addNames (addDescriptor found descriptor.toList) exceptions
    else return addNames (addRefs found (← Signature.parseMethod signature).refs) exceptions
  | .annotated a =>
    return (a.descriptor :: a.refs).foldl (fun found d => addDescriptor found d.toList) found
  | .instruction i =>
    let o := i.operand
    return addDescriptor (addName (addName found o.typeName) o.owner) o.descriptor.toList
  | .catchBlock c => return addName found c.type
  | .localVariable v =>
    if v.signature = "" then return found
    else return addRefs found ((← Signature.parseField v.signature).refs .field)
  | _ => return found

def ofClass (c : ClassFile) : Except ImportError ClassImports := do
  let found ← (c.events.foldlM step []).mapError (⟨c.name, ·⟩)
  return { className := ClassName.binary c.name
           package := ClassName.binary (ClassName.package c.name), imports := .ofList found }

end ClassImports

end ClassAudit
