import ClassAudit.Check

/-! # Commands

    The commands, and the texts that explain them.
-/

namespace ClassAudit

inductive Command
  | init
  | single (check : Check)
  | every
  | overrides
  deriving DecidableEq

namespace Command

def all : List Command :=
  [init] ++ Check.all.map single ++ [every, overrides]

def name : Command → String
  | init => "init"
  | single check => check.name
  | every => "check"
  | overrides => "overrides"

def ofName? (name : String) : Option Command :=
  all.find? (·.name == name)

/-! ### Texts -/

def summary : Command → String
  | init => "Create a classguard.yaml project file"
  | single .calls => "Report calls to forbidden methods"
  | single .deps => "Evaluate package dependencies against the policy"
  | single .coverage => "Report classes without a test class"
  | every => "Run every configured check"
  | overrides => "List the methods a method overrides"

def usage : Command → String
  | init => "classguard init [dir]"
  | overrides => "classguard overrides <config> <class> <method> <descriptor>"
  | command => "classguard " ++ command.name ++ " [--report file] [config]"

def details : Command → String
  | init =>
    "Prompt for the settings of every check and write dir/classguard.yaml\n" ++
    "(dir defaults to the current directory).\n\n" ++
    "When the answer names a dependency policy file that does not exist yet, a\n" ++
    "starter policy is written there too.\n\n" ++
    "Errors if classguard.yaml already exists."
  | single .calls =>
    "Scan the configured class roots for invocations of forbidden methods.\n\n" ++
    "Each caller method is reported once, with the source file and line of its\n" ++
    "last call to a forbidden method. Exits non-zero when calls are found."
  | single .deps =>
    "Collect the packages every class references and evaluate them against\n" ++
    "the dependency policy (.yaml or .xml). Exits non-zero on violations."
  | single .coverage =>
    "Require <Class><Suffix>.class in the test class directory for every\n" ++
    "top-level concrete class. Exits non-zero when tests are missing."
  | every =>
    "Run calls, deps and coverage, skipping checks the project file does not\n" ++
    "configure. With --report, all findings go to one markdown report."
  | overrides =>
    "Search the supertypes of <class> on the configured class roots for the\n" ++
    "methods that <method><descriptor> overrides or implements, nearest first.\n\n" ++
    "Example:\n  classguard overrides classguard.yaml com.acme.Impl run \"()V\""

def unknownText (name : String) : String :=
  "unknown command " ++ Text.quote name ++ "\n\nRun 'classguard help' for usage."

def help (name : String) : String :=
  match ofName? name with
  | some command => "Usage: " ++ command.usage ++ "\n\n" ++ command.details
  | none => "classguard: " ++ unknownText name

def listing (command : Command) : String :=
  let width := 10
  "  " ++ command.name ++ String.ofList (List.replicate (width - command.name.length) ' ') ++ " " ++
    command.summary ++ "\n"

def overview : String :=
  "classguard - static checks over compiled JVM classes\n\n" ++
  "Usage:\n  classguard <command> [arguments]\n\n" ++
  "Commands:\n" ++ String.join (all.map listing) ++
  "\nRun 'classguard help <command>' for details on a specific command."

end Command

end ClassAudit
