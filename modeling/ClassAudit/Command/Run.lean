import ClassAudit.Command.Init
import ClassAudit.Command.Overrides

/-! # Running commands -/

namespace ClassAudit.Command

def run (s : Surroundings) (t : FileTree) (command : Command) (args : List String) : Outcome :=
  match command with
  | .init => runInit s t args
  | .overrides => runOverrides s t args
  | .single _ | .every => runChecks s t command args

def runArguments (s : Surroundings) (t : FileTree) : List String → Outcome
  | [] | "--help" :: _ | "-h" :: _ | ["help"] => (Outcome.start t).print overview
  | "help" :: name :: _ => (Outcome.start t).print (help name)
  | name :: args =>
    match ofName? name with
    | some command => command.run s t args
    | none => (Outcome.start t).fail (.text (unknownText name))

end ClassAudit.Command
