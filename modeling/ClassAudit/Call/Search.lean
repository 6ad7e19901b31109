import ClassAudit.Files.Walk

/-! # Looking for calls in class files -/

namespace ClassAudit.CallSite

def title : String := "Illegal method calls found:"

/-- The calls of some methods in the classes of some roots, where the walk can be adapted. -/
def search (t : FileTree)
    (adapt : Handler (Collector CallError CallSite) → Handler (Collector CallError CallSite))
    (targets : Except CallError TargetSet) (roots : List Path) : Except Failure (List CallSite) :=
  match targets with
  | .error e => .error (.calls e)
  | .ok targets =>
    ClassSource.collect adapt .calls (find targets) (ClassSource.ofRoots t roots)

def searchRoots (t : FileTree) (targets : List CallTarget) (roots : List Path) :
    Except Failure (List CallSite) :=
  search t id (TargetSet.ofList targets) roots

def forbid (t : FileTree) (targets : List CallTarget) (roots : List Path) : Option Failure :=
  match searchRoots t targets roots with
  | .error e => some e
  | .ok sites => Failure.ofFindings title (sites.map text)

end ClassAudit.CallSite
