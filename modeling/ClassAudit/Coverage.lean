import ClassAudit.ClassFile.Access
import ClassAudit.Files.Walk

/-! # Missing tests

    A class that can be made an object of needs a test class next to it in the tree of tests, with
    the same name and a suffix.
-/

namespace ClassAudit

structure MissingTest where
  className : String
  /-- The name that its test class should have. -/
  expected : String

namespace MissingTest

def text (m : MissingTest) : String :=
  m.className ++ " has no test class " ++ m.expected

/-- The suffix of test classes if none is given. -/
def defaultSuffix : String := "Test"

/-- Whether a class needs a test. Nested classes, interfaces and what cannot be made an object of
    need none, nor do classes whose names start with something that is left out. -/
def isNeeded (exclude : List ByteString) (cf : ClassFile) : Bool :=
  let simple := ClassName.simple cf.name
  let name : ByteString := ClassName.binary cf.name
  !(simple.toList.contains '$' || simple == "package-info" || simple == "module-info") &&
    !Access.hasAny cf.access [Access.isInterface, Access.isAbstract, Access.isAnnotationType,
      Access.isSynthetic, Access.isModule] &&
    !exclude.any name.startsWith

def handler (t : FileTree) (testClasses : Path) (suffix : ByteString)
    (exclude : List ByteString) : Handler (List MissingTest) := fun missing _ cf =>
  if isNeeded exclude cf then
    let test : ByteString := cf.name ++ suffix
    match t.stat (Path.join [testClasses, test ++ (".class" : ByteString)]) with
    | .ok _ => (missing, none)
    | .error e =>
      if e.reason = .missing then
        (missing ++ [⟨ClassName.binary cf.name, ClassName.binary test.shown⟩], none)
      else (missing, some (.file e))
  else (missing, none)

def find (t : FileTree) (root testClasses : Path) (suffix : ByteString)
    (exclude : List ByteString) : Except Failure (List MissingTest) :=
  let suffix : ByteString := if suffix.isEmpty then .ofString defaultSuffix else suffix
  match ClassSource.visitAll (handler t testClasses suffix exclude) []
      (ClassSource.ofRoot t root) with
  | (missing, none) => .ok missing
  | (_, some e) => .error e

end MissingTest

end ClassAudit
