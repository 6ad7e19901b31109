import ClassAudit.Call.Search
import ClassAudit.Coverage
import ClassAudit.Policy.File
import ClassAudit.Policy.Violation

/-! # Checks

    There are three checks of a project: for calls that must not be made, for imports that its
    policy forbids, and for classes without tests. Each needs some settings, which are asked for
    when a project is set up. All of them leave out the same classes.
-/

namespace ClassAudit

inductive Check
  | calls
  | deps
  | coverage
  deriving DecidableEq

namespace Check

/-- All checks, in the order in which they are made. -/
def all : List Check :=
  [calls, deps, coverage]

def name : Check → String
  | calls => "calls"
  | deps => "deps"
  | coverage => "coverage"

def ofName? (name : String) : Option Check :=
  all.find? (·.name == name)

/-! ### Settings -/

/-- Whether a project has the settings that a check needs. -/
def isConfigured (c : Config) : Check → Bool
  | calls => !c.forbiddenCalls.isEmpty
  | deps => !c.policy.isEmpty
  | coverage => !c.testClasses.isEmpty

end Check

structure Question where
  setting : Config.Setting
  prompt : String

namespace Question

def key (q : Question) : String :=
  q.setting.key

/-- What kind of answer a question wants. All answers are texts. -/
def kind (_ : Question) : String := "text"

def classes : Question :=
  ⟨.classes, "Class directories or JARs (comma-separated)"⟩

def ofCheck : Check → List Question
  | .calls => [⟨.forbiddenCalls, "Forbidden calls (Class#signature, separated by ;)"⟩]
  | .deps => [⟨.policy, "Dependency policy file (.yaml or .xml)"⟩]
  | .coverage =>
    [⟨.testClasses, "Test class directory"⟩,
      ⟨.coverageSuffix, "Test class suffix (default " ++ MissingTest.defaultSuffix ++ ")"⟩]

/-- Adds a question, unless there is one for the same setting. -/
def add (questions : List Question) (q : Question) : List Question :=
  if questions.any (·.setting = q.setting) then questions else questions ++ [q]

/-- The questions of some checks, one for each setting. -/
def ofChecks (checks : List Check) : List Question :=
  (checks.flatMap ofCheck).foldl add [classes]

end Question

namespace Check

/-! ### Findings -/

def title : Check → String
  | calls => CallSite.title
  | deps => "Illegal dependencies found:"
  | coverage => "Classes without tests found:"

def callFindings (t : FileTree) (c : Config) : Except Failure (List String) := do
  return (← CallSite.search t c.handler c.targetSet c.classes).map CallSite.text

def importFindings (t : FileTree) (c : Config) : Except Failure (List String) := do
  if c.policy.isEmpty then throw (.text "no policy configured")
  let policy ← Policy.load t c.policy
  let imports ← ClassSource.collect c.handler .imports
    (fun cf => (ClassImports.ofClass cf).map ([·])) (ClassSource.ofRoots t c.classes)
  return (policy.violations imports).map Violation.text

def testFindings (t : FileTree) (c : Config) : Except Failure (List String) := do
  if c.testClasses.isEmpty then throw (.text "no test class directory configured")
  let missing ← c.classes.mapM fun root =>
    MissingTest.find t root c.testClasses c.coverageSuffix c.coverageExclude
  return (missing.flatten.filter fun m => !c.excludes (ClassName.internal m.className)).map
    MissingTest.text

def findings (t : FileTree) (c : Config) : Check → Except Failure (List String)
  | calls => callFindings t c
  | deps => importFindings t c
  | coverage => testFindings t c

/-- The result of a check of a project: nothing, or its findings, or why it cannot be made. -/
def run (t : FileTree) (c : Config) (check : Check) : Option Failure :=
  match check.findings t c with
  | .ok lines => Failure.ofFindings check.title lines
  | .error e => some (.within ("check " ++ check.name) e)

end Check

end ClassAudit
