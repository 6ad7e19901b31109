import ClassAudit.Command.Check

/-! # Setting up projects

    Setting up a project asks for its settings and writes a project file, and with it a policy to
    start from if the answers name a file for it that does not exist. Files that exist are not
    touched.
-/

namespace ClassAudit

def Policy.starter : Policy :=
  { Policy.empty with
    alwaysForbidden := [.deny "sun" "JDK internal API", .deny "com.sun" "JDK internal API"] }

namespace Command

/-- The project that answers describe, or the first answer that is none. -/
def configure (answers : List (String × String)) :
    List Question → Config → Except Config.SettingError Config
  | [], c => .ok c
  | q :: questions, c =>
    match c.set q.key ((answers.lookup q.key).getD "") with
    | (c, none) => configure answers questions c
    | (_, some e) => .error e

def writeStarter (directory : Path) (c : Config) (o : Outcome) : Outcome :=
  if c.policy.isEmpty then o
  else
    let path := Path.resolve directory c.policy
    match o.tree.stat path with
    | .ok _ => o
    | .error e =>
      if e.reason ≠ .missing then o
      else if Policy.Format.ofExtension? (Policy.extensionOf path) ≠ some .yaml then
        o.note ("not writing a starter policy to " ++ path.shown ++ ": only YAML is generated")
      else
        match o.tree.write path (Text.utf8 Policy.starter.toYaml) with
        | .error e => o.fail (.within "write policy" (.file e))
        | .ok t => (o.setTree t).print ("created " ++ path.shown)

def createProject (directory path : Path) (c : Config) (o : Outcome) : Outcome :=
  match c.save o.tree path with
  | .error e => o.fail e
  | .ok t => writeStarter directory c ((o.setTree t).print ("created " ++ path.shown))

def initIn (s : Surroundings) (t : FileTree) (directory : Path) : Outcome :=
  let path := Path.join [directory, Config.defaultFile]
  if t.contains path then (Outcome.start t).fail (.text (path.shown ++ " already exists"))
  else
    let questions := Question.ofChecks Check.all
    let o := { Outcome.start t with asked := questions }
    match s.ask questions with
    | .error message => o.fail (.within "prompt" (.text message))
    | .ok answers =>
      match configure answers questions .empty with
      | .error e => o.fail (.setting e)
      | .ok c => createProject directory path c o

def runInit (s : Surroundings) (t : FileTree) : List String → Outcome
  | [] => initIn s t Path.here
  | [directory] => initIn s t directory
  | _ => (Outcome.start t).fail init.misuse

end Command

end ClassAudit
