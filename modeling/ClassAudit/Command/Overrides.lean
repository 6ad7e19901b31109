import ClassAudit.ClassPath.Overrides
import ClassAudit.Command.Check

/-! # Listing overridden methods -/

namespace ClassAudit.Command

def overrideLines (className method descriptor : String) : List CallTarget → List String
  | [] => [className ++ "." ++ method ++ descriptor ++ " overrides nothing"]
  | targets => targets.map CallTarget.text

def findOverrides (s : Surroundings) (t : FileTree) (config className method descriptor : String) :
    Except Failure (List CallTarget) := do
  let c ← Config.load t s.environment config
  let _ ← (Descriptor.parseMethod descriptor).mapError Failure.descriptor
  let path ← ClassPath.ofRoots t ClassPath.defaultSize c.classes
  (path.overrides t className method descriptor).1

def runOverrides (s : Surroundings) (t : FileTree) (args : List String) : Outcome :=
  let o := Outcome.start t
  match args with
  | [config, className, method, descriptor] =>
    match findOverrides s t config className method descriptor with
    | .error e => o.fail e
    | .ok targets => { o with output := overrideLines className method descriptor targets }
  | _ => o.fail overrides.misuse

end ClassAudit.Command
