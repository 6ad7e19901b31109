import ClassAudit.Call.Target
import ClassAudit.ClassFile.Event

/-! # Call sites

    Which methods of a class call one of a set of targets. Every calling method gives one site:
    its last call of a target counts, and the last line marker of the method.
-/

namespace ClassAudit

structure CallSite where
  callee : CallTarget
  caller : CallTarget
  /-- The source file, empty if it is not recorded. -/
  sourceFile : String
  /-- The line, 0 if the method has no line numbers. -/
  line : Nat

def CallSite.text (s : CallSite) : String :=
  "Source='" ++ s.sourceFile ++ "', Line=" ++ toString s.line ++ ", " ++ s.caller.text ++
    " ==CALLS==> " ++ s.callee.text

inductive CallError where
  | noTargets
  /-- A method of a class has, or calls a method with, a descriptor that cannot be read. -/
  | badDescriptor (className method : String) (error : DescriptorError)

def CallError.message : CallError → String
  | noTargets => "calls: no target methods"
  | badDescriptor className method error =>
    "calls: " ++ className ++ "." ++ method ++ ": " ++ error.message

structure TargetSet where
  targets : List CallTarget

namespace TargetSet

def ofList : List CallTarget → Except CallError TargetSet
  | [] => .error .noTargets
  | targets => .ok ⟨targets⟩

def contains (s : TargetSet) (t : CallTarget) : Bool :=
  s.targets.contains t

end TargetSet

namespace CallSite

/-! ### Walking through a class -/

/-- What a walk through the events of a class has seen so far. -/
structure Search where
  className : String
  sourceFile : String
  methodName : String
  methodDescriptor : String
  /-- The last target that the method called. -/
  found : Option CallTarget
  line : Nat
  sites : List CallSite

def Search.start : Search :=
  ⟨"", "", "", "", none, 0, []⟩

/-- The method with this name and descriptor, or an error about the current method. -/
def Search.target (s : Search) (owner name descriptor : String) :
    Except CallError CallTarget :=
  (CallTarget.ofMember owner name descriptor).mapError (.badDescriptor s.className s.methodName)

def Search.step (targets : TargetSet) (s : Search) : Event → Except CallError Search
  | .classDeclared _ _ name _ _ _ => return { s with className := name }
  | .sourceFileDeclared file => return { s with sourceFile := file }
  | .methodDeclared _ name descriptor _ _ =>
    return { s with methodName := name, methodDescriptor := descriptor, found := none, line := 0 }
  | .lineNumber line => return { s with line }
  | .instruction i =>
    if i.opcode.isInvoke then do
      let callee ← s.target i.operand.owner i.operand.name i.operand.descriptor
      return if targets.contains callee then { s with found := some callee } else s
    else return s
  | .methodEnd =>
    match s.found with
    | none => return s
    | some callee => do
      let caller ← s.target s.className s.methodName s.methodDescriptor
      return { s with sites := ⟨callee, caller, s.sourceFile, s.line⟩ :: s.sites }
  | _ => return s

/-- The call sites of a class, in the order of its methods. -/
def find (targets : TargetSet) (c : ClassFile) : Except CallError (List CallSite) := do
  let s ← c.events.foldlM (Search.step targets) Search.start
  return s.sites.reverse

end CallSite

end ClassAudit
