import ClassAudit.Command.Arguments
import ClassAudit.Command.Basic
import ClassAudit.Command.Outcome
import ClassAudit.Report.File

/-! # Check commands

    A check command makes some checks of a project one after the other. It prints their findings as
    they come, stops at the first check that cannot be made, and writes a report if it is asked for
    one. It fails if anything has been found.
-/

namespace ClassAudit

structure Sweep where
  /-- The findings, each with the name of its check. -/
  lines : List String
  begun : List Check
  failure : Option Failure

namespace Sweep

def tag (check : Check) (finding : String) : String :=
  "[" ++ check.name ++ "] " ++ finding

/-- Makes checks of a project, up to the first one that cannot be made. -/
def make (t : FileTree) (c : Config) : List Check → Sweep
  | [] => ⟨[], [], none⟩
  | check :: checks =>
    match Failure.split (check.run t c) with
    | (_, some e) => ⟨[], [check], some e⟩
    | (found, none) =>
      let rest := make t c checks
      ⟨found.map (tag check) ++ rest.lines, check :: rest.begun, rest.failure⟩

end Sweep

namespace Command

def misuse (command : Command) : Failure :=
  .text ("usage: " ++ command.usage)

def checks (c : Config) : Command → List Check
  | single check => [check]
  | every => Check.all.filter (·.isConfigured c)
  | _ => []

def report (now : Timestamp) (command : Command) (lines : List String) : Report :=
  ⟨⟨command.name, lines.length, now⟩, lines⟩

def conclude (command : Command) (lines : List String) (o : Outcome) : Outcome :=
  if lines.isEmpty then o.print (command.name ++ ": no findings")
  else o.fail (.found command.name lines.length)

def makeChecks (now : Timestamp) (t : FileTree) (command : Command) (c : Config)
    (reportPath : String) (checks : List Check) : Outcome :=
  let sweep := Sweep.make t c checks
  let o : Outcome :=
    ⟨t, sweep.lines, sweep.begun.map fun check => "running " ++ check.name ++ "...", [],
      sweep.failure⟩
  if o.failure.isSome then o
  else if reportPath = "" then command.conclude sweep.lines o
  else
    match (command.report now sweep.lines).save t reportPath with
    | .error e => o.fail e
    | .ok t => command.conclude sweep.lines ((o.setTree t).note ("wrote " ++ reportPath))

def runChecks (s : Surroundings) (t : FileTree) (command : Command) (args : List String) :
    Outcome :=
  let o := Outcome.start t
  match CheckArguments.parse? args with
  | none => o.fail command.misuse
  | some args =>
    match Config.load t s.environment args.config with
    | .error e => o.fail e
    | .ok c =>
      match command.checks c with
      | [] => o.fail (.text ("no checks configured in " ++ args.config))
      | checks => makeChecks s.now t command c args.report checks

end Command

end ClassAudit
