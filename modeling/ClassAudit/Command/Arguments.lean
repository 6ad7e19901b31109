import ClassAudit.Config.File

/-! # Arguments of check commands

    A check command takes the path of a project file and the option `report`, before or after it,
    with the path of a report. An option has one dash or two, and its value follows an equality sign
    or is the next argument. Two dashes alone say that the next argument is a path.
-/

namespace ClassAudit

structure CheckArguments where
  config : String
  /-- The path of the report, empty if none is wanted. -/
  report : String

namespace CheckArguments

inductive Word
  | path
  /-- The end of the options in front of a path. -/
  | dashes
  /-- The option `report`, with its value if that is in the same argument. -/
  | report (value : Option String)
  | unknown

def Word.ofOption (cs : List Char) : Word :=
  if String.ofList (cs.takeWhile (· != '=')) = "report" then
    match cs.dropWhile (· != '=') with
    | [] => .report none
    | _ :: value => .report (some (String.ofList value))
  else .unknown

/-- What an argument is. A dash alone is a path. -/
def Word.of (arg : String) : Word :=
  match arg.toList with
  | ['-', '-'] => .dashes
  | '-' :: '-' :: cs => .ofOption cs
  | '-' :: c :: cs => .ofOption (c :: cs)
  | _ => .path

/-- The paths among the arguments and the last value of the option, or nothing if an option is
    unknown or has no value. After two dashes the next argument is a path whatever it is. -/
def read : Bool → List String → String → List String → Option (List String × String)
  | _, paths, report, [] => some (paths, report)
  | true, paths, report, arg :: args => read false (paths ++ [arg]) report args
  | false, paths, report, arg :: args =>
    match Word.of arg with
    | .path => read false (paths ++ [arg]) report args
    | .dashes => read true paths report args
    | .unknown => none
    | .report (some value) => read false paths value args
    | .report none =>
      match args with
      | [] => none
      | value :: args => read false paths value args

def parse? (args : List String) : Option CheckArguments :=
  match read false [] "" args with
  | some ([], report) => some ⟨Config.defaultFile, report⟩
  | some ([path], report) => some ⟨path, report⟩
  | _ => none

end CheckArguments

end ClassAudit
