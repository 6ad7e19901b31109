import ClassAudit.Config.Yaml
import ClassAudit.Environment
import ClassAudit.Failure
import ClassAudit.Files.Tree

/-! # Project files

    A project is loaded from a file. Some of its settings give way to variables of the environment,
    and these come before the variables of an environment file next to the project file. Paths are
    then meant relative to the directory of the project file.
-/

namespace ClassAudit

namespace Config

def defaultFile : String := "classguard.yaml"

def environmentFile : String := ".env"

/-! ### Variables -/

/-- The variables that override settings. -/
def classesVariable : String := "CLASSGUARD_CLASSES"

@[inherit_doc classesVariable]
def testClassesVariable : String := "CLASSGUARD_TEST_CLASSES"

@[inherit_doc classesVariable]
def policyVariable : String := "CLASSGUARD_POLICY"

def firstNonEmpty (a b : ByteString) : ByteString :=
  if a.isEmpty then b else a

/-- The value of a variable without white space around it. Those of the process come first. -/
def variableValue (process file : Environment.Variables) (name : String) : ByteString :=
  firstNonEmpty (Environment.value process name).trim (Environment.value file name).trim

/-- The project with the settings that variables give it. -/
def override (process file : Environment.Variables) (c : Config) : Config :=
  let classes := variableValue process file classesVariable
  { c with
    classes := if classes.isEmpty then c.classes else listOf classes
    testClasses := firstNonEmpty (variableValue process file testClassesVariable) c.testClasses
    policy := firstNonEmpty (variableValue process file policyVariable) c.policy }

/-- The project with its paths meant relative to a directory. -/
def resolve (directory : Path) (c : Config) : Config :=
  { c with
    classes := c.classes.map (Path.resolve directory)
    testClasses := Path.resolve directory c.testClasses
    policy := Path.resolve directory c.policy }

/-- The variables of the environment file in a directory. There are none if it is missing. -/
def environmentIn (t : FileTree) (directory : Path) :
    Except Failure Environment.Variables :=
  match t.read (Path.join [directory, environmentFile]) with
  | .ok bytes =>
    match Environment.parse? bytes with
    | some vars => .ok vars
    | none => .error (.within "config: read .env" .environment)
  | .error e =>
    if e.reason = .missing then .ok [] else .error (.within "config: read .env" (.file e))

/-! ### Loading and saving -/

def load (t : FileTree) (process : Environment.Variables) (path : Path) :
    Except Failure Config :=
  match t.read path with
  | .error e => .error (.within ("config: read " ++ path.shown) (.file e))
  | .ok bytes =>
    match ofYaml bytes with
    | .error e => .error (.within ("config: unmarshal " ++ path.shown) (.decoding e))
    | .ok c => do
      let directory := Path.directory path
      let file ← environmentIn t directory
      return (c.override process file).resolve directory

/-- Writes a project to a file, which must not exist. -/
def save (t : FileTree) (path : Path) (c : Config) : Except Failure FileTree :=
  if t.contains path then .error (.text ("config: " ++ path.shown ++ " already exists"))
  else
    (t.write path (Text.utf8 c.toYaml)).mapError fun e =>
      .within ("config: write " ++ path.shown) (.file e)

end Config

end ClassAudit
