import ClassAudit.Command.Run
import ClassAudit.Proofs.Check.Exclusion
import ClassAudit.Proofs.Report

/-! # What check commands print and report

    A check command prints the findings of its checks one after the other, and the command that
    makes every check prints what the commands for single checks print. What comes after that, a
    report and a word if nothing has been found, depends on the findings alone. A report is read back
    as what has been printed exactly if no finding has a line feed in it.
-/

namespace ClassAudit

/-- The findings among what a command has printed. They start with the name of their check in
    brackets. -/
def Outcome.findings (o : Outcome) : List String :=
  o.output.filter fun text => text.toList.head? == some '['

/-- A path leads to a report with a number of findings. -/
def FileTree.Reports (t : FileTree) (path : Path) (count : Nat) : Prop :=
  ∃ bytes r, t.read path = .ok bytes ∧ Report.parse bytes = .ok r ∧ r.summary.findings = count

/-! ### Sweeps -/

namespace Sweep

variable {t : FileTree} {c : Config}

/-- The findings of a check with its name, if it comes to a result. -/
def linesOf (t : FileTree) (c : Config) (check : Check) : List String :=
  ((check.findings t c).toOption.getD []).map (tag check)

theorem split_run {check : Check} {lines : List String} (h : check.findings t c = .ok lines) :
    Failure.split (check.run t c) = (lines, none) := by
  rw [Check.run, h]
  cases lines <;> rfl

/-- Checks that come to a result are all made. -/
theorem make_eq {checks : List Check} (h : ∀ check ∈ checks, check.comesToResult t c = true) :
    make t c checks = ⟨checks.flatMap (linesOf t c), checks, none⟩ := by
  induction checks with
  | nil => rfl
  | cons check checks ih =>
    obtain ⟨hcheck, hchecks⟩ := List.forall_mem_cons.mp h
    obtain ⟨lines, hlines⟩ := Check.exists_findings hcheck
    rw [make, split_run hlines]
    simp only [ih hchecks]
    simp [linesOf, hlines, Except.toOption]

theorem head?_of_mem_make {checks : List Check} {line : String}
    (h : line ∈ (make t c checks).lines) : line.toList.head? = some '[' := by
  induction checks with
  | nil => nomatch h
  | cons check checks ih =>
    rw [make] at h
    split at h
    · nomatch h
    · rcases List.mem_append.mp h with h | h
      · obtain ⟨finding, -, rfl⟩ := List.mem_map.mp h
        simp [tag]
      · exact ih h

end Sweep

namespace Command

variable {s : Surroundings} {t : FileTree} {c : Config} {command : Command} {args : List String}

def makesChecks : Command → Bool
  | single _ | every => true
  | init | overrides => false

theorem run_eq_runChecks (h : command.makesChecks = true) :
    command.run s t args = command.runChecks s t args := by
  cases command with
  | single check => rfl
  | every => rfl
  | init => nomatch h
  | overrides => nomatch h

/-- Why the report on some findings cannot be written, if one is wanted and cannot be. -/
def unwritten? (now : Timestamp) (t : FileTree) (command : Command) (path : String)
    (lines : List String) : Option Failure :=
  if path = "" then none
  else
    match (command.report now lines).save t path with
    | .error e => some e
    | .ok _ => none

/-! ### Concluding -/

variable {lines : List String} {o : Outcome}

theorem tree_conclude : (command.conclude lines o).tree = o.tree := by
  unfold conclude
  split <;> rfl

theorem log_conclude : (command.conclude lines o).log = o.log := by
  unfold conclude
  split <;> rfl

theorem failure_conclude :
    (command.conclude lines o).failure =
      if lines = [] then o.failure else some (.found command.name lines.length) := by
  unfold conclude
  cases lines <;> rfl

theorem output_conclude :
    (command.conclude lines o).output =
      if lines = [] then o.output ++ [command.name ++ ": no findings"] else o.output := by
  unfold conclude
  cases lines <;> rfl

/-- The name of a command starts with no bracket. -/
theorem head?_noFindings (command : Command) :
    ((command.name ++ ": no findings").toList.head? == some '[') = false := by
  cases command with
  | single check => cases check <;> decide
  | init => decide
  | every => decide
  | overrides => decide

theorem findings_conclude : (command.conclude lines o).findings = o.findings := by
  rw [Outcome.findings, output_conclude]
  split
  · rw [List.filter_append,
      List.filter_cons_of_neg (by rw [head?_noFindings]; exact Bool.false_ne_true)]
    simp [Outcome.findings]
  · rfl

/-! ### Runs -/

variable {now : Timestamp} {path : String} {checks : List Check} {sweep : Sweep}

/-- What has been written to the log when the checks are made. -/
def runningLog (sweep : Sweep) : List String :=
  sweep.begun.map fun check => "running " ++ check.name ++ "..."

/-- How a check command ends, by what comes of its checks and of its report. -/
inductive Ends (now : Timestamp) (t : FileTree) (command : Command) (path : String)
    (sweep : Sweep) : Outcome → Prop
  | stopped {e : Failure} (h : sweep.failure = some e) :
      Ends now t command path sweep ⟨t, sweep.lines, runningLog sweep, [], some e⟩
  | unwritten {e : Failure} (h : sweep.failure = none) (hpath : path ≠ "")
      (hsave : (command.report now sweep.lines).save t path = .error e) :
      Ends now t command path sweep ⟨t, sweep.lines, runningLog sweep, [], some e⟩
  | unreported (h : sweep.failure = none) (hpath : path = "") :
      Ends now t command path sweep
        (command.conclude sweep.lines ⟨t, sweep.lines, runningLog sweep, [], none⟩)
  | reported {t' : FileTree} (h : sweep.failure = none) (hpath : path ≠ "")
      (hsave : (command.report now sweep.lines).save t path = .ok t') :
      Ends now t command path sweep (command.conclude sweep.lines
        ⟨t', sweep.lines, runningLog sweep ++ ["wrote " ++ path], [], none⟩)

theorem ends_makeChecks :
    Ends now t command path (Sweep.make t c checks)
      (makeChecks now t command c path checks) := by
  -- Nothing about the checks matters from here on but what came of them.
  generalize hsweep : Sweep.make t c checks = sweep
  unfold makeChecks
  simp only [hsweep]
  cases hfailure : sweep.failure with
  | some e => exact .stopped hfailure
  | none =>
    by_cases hpath : path = ""
    · rw [if_neg (by simp), if_pos hpath]
      exact .unreported hfailure hpath
    · rw [if_neg (by simp), if_neg hpath]
      cases hsave : (command.report now sweep.lines).save t path with
      | error e => exact .unwritten hfailure hpath hsave
      | ok t' => exact .reported hfailure hpath hsave

namespace Ends

variable (h : Ends now t command path sweep o)
include h

/-- The findings that are printed are those of the checks. -/
theorem findings_eq (hlines : ∀ line ∈ sweep.lines, line.toList.head? = some '[') :
    o.findings = sweep.lines := by
  have hall : sweep.lines.filter (fun text => text.toList.head? == some '[') = sweep.lines :=
    List.filter_eq_self.mpr fun line hline => by simpa using hlines line hline
  cases h with
  | stopped _ => exact hall
  | unwritten _ _ _ => exact hall
  | unreported _ _ => rw [findings_conclude]; exact hall
  | reported _ _ _ => rw [findings_conclude]; exact hall

theorem save_of_wrote (hwrote : ("wrote " ++ path) ∈ o.log) :
    (command.report now sweep.lines).save t path = .ok o.tree := by
  -- The other lines of the log start with an `r`, whatever the path is.
  have hrunning : "wrote " ++ path ∉ runningLog sweep := by
    intro hmem
    obtain ⟨check, -, heq⟩ := List.mem_map.mp hmem
    have hhead := congrArg (fun text => text.toList.head?) heq
    simp at hhead
  cases h with
  | stopped _ => exact absurd hwrote hrunning
  | unwritten _ _ _ => exact absurd hwrote hrunning
  | unreported _ _ => exact absurd (by rwa [log_conclude] at hwrote) hrunning
  | reported _ _ hsave => rw [tree_conclude]; exact hsave

theorem save_of_not_unwritten (hsweep : sweep.failure = none) (hpath : path ≠ "")
    (hnone : unwritten? now t command path sweep.lines = none) :
    (command.report now sweep.lines).save t path = .ok o.tree := by
  cases h with
  | stopped hfailure => exact absurd (hfailure.symm.trans hsweep) (Option.some_ne_none _)
  | unwritten _ _ hsave => rw [unwritten?, if_neg hpath, hsave] at hnone; nomatch hnone
  | unreported _ hpath' => exact absurd hpath' hpath
  | reported _ _ hsave => rw [tree_conclude]; exact hsave

theorem failure_eq (hsweep : sweep.failure = none) :
    o.failure = (unwritten? now t command path sweep.lines).or
      (if sweep.lines = [] then none else some (.found command.name sweep.lines.length)) := by
  cases h with
  | stopped hfailure => exact absurd (hfailure.symm.trans hsweep) (Option.some_ne_none _)
  | unwritten _ hpath hsave => rw [unwritten?, if_neg hpath, hsave]; rfl
  | unreported _ hpath => rw [unwritten?, if_pos hpath, failure_conclude]; rfl
  | reported _ hpath hsave => rw [unwritten?, if_neg hpath, hsave, failure_conclude]; rfl

theorem mem_output_iff (hsweep : sweep.failure = none)
    (hlines : ∀ line ∈ sweep.lines, line.toList.head? = some '[') :
    command.name ++ ": no findings" ∈ o.output ↔
      unwritten? now t command path sweep.lines = none ∧ sweep.lines = [] := by
  have hnot : command.name ++ ": no findings" ∉ sweep.lines := fun hmem => by
    have hhead := head?_noFindings command
    rw [hlines _ hmem] at hhead
    nomatch hhead
  -- With and without a report, the command concludes from the same output.
  have hconclude : ∀ {o : Outcome}, o.output = sweep.lines →
      (command.name ++ ": no findings" ∈ (command.conclude sweep.lines o).output ↔
        sweep.lines = []) := by
    intro o ho
    rw [output_conclude, ho]
    split
    · next hempty => simp [hempty]
    · next hempty => simp [hempty, hnot]
  cases h with
  | stopped hfailure => exact absurd (hfailure.symm.trans hsweep) (Option.some_ne_none _)
  | unwritten _ hpath hsave => simp [unwritten?, hpath, hsave, hnot]
  | unreported _ hpath => rw [hconclude rfl, unwritten?, if_pos hpath]; simp
  | reported _ hpath hsave => rw [hconclude rfl, unwritten?, if_neg hpath, hsave]; simp

end Ends

/-! ### Reports -/

/-- A report that is written is read back up to the line feeds in its findings. -/
theorem parse_saved {t' : FileTree} (hcommand : command.makesChecks = true) (hs : t.Sound)
    (hnow : now.Valid) (hcount : lines.length < 0x8000000000000000)
    (h : (command.report now lines).save t path = .ok t') :
    ∃ bytes, t'.read path = .ok bytes ∧ Report.parse bytes =
      .ok ⟨⟨command.name, lines.length, now⟩, lines.flatMap Report.readBack⟩ := by
  have hwrite := FileTree.write_of_mapError h
  refine ⟨_, hs.read_write hwrite, ?_⟩
  have hname : '\n' ∉ command.name.toList := by
    cases command with
    | single check => cases check <;> decide +kernel
    | every => decide +kernel
    | init => nomatch hcommand
    | overrides => nomatch hcommand
  exact Report.parse_text (r := command.report now lines)
    ⟨Yaml.showsIndentation_of_not_mem hname, ⟨lines.length, rfl, hcount⟩, hnow⟩ hname

theorem ends_run {a : CheckArguments} (command : Command)
    (hcommand : command.makesChecks = true) (hargs : CheckArguments.parse? args = some a)
    (hload : Config.load t s.environment a.config = .ok c) (hsome : command.checks c ≠ []) :
    Ends s.now t command a.report (Sweep.make t c (command.checks c)) (command.run s t args) := by
  obtain ⟨check, checks, hchecks⟩ := List.exists_cons_of_ne_nil hsome
  rw [run_eq_runChecks hcommand, runChecks, hargs]
  simp only [hload, hchecks]
  exact ends_makeChecks

/-! ### Every check -/

theorem findings_run_single {a : CheckArguments} {check : Check}
    (hargs : CheckArguments.parse? args = some a)
    (hload : Config.load t s.environment a.config = .ok c)
    (hresult : check.comesToResult t c = true) :
    ((single check).run s t args).findings = Sweep.linesOf t c check := by
  have hends := ends_run (single check) rfl hargs hload (List.cons_ne_nil _ _)
  have hmake : Sweep.make t c [check] = _ := Sweep.make_eq (by simpa using hresult)
  rw [hends.findings_eq fun line => Sweep.head?_of_mem_make]
  simp [checks, hmake]

/-- The command that makes every check of a project prints what the commands for the single checks
    print, in their order. If its report can be written, it fails exactly if something has been
    found, and the report has the same number of findings. -/
theorem run_every {a : CheckArguments} (singles : Check → List String)
    (hargs : CheckArguments.parse? args = some a)
    (hload : Config.load t s.environment a.config = .ok c)
    (hsome : ∃ check : Check, check.isConfigured c = true)
    (hresult : ∀ check : Check, check.isConfigured c = true → check.comesToResult t c = true)
    (hsingles : ∀ check : Check, check.isConfigured c = true →
      ∃ report, CheckArguments.parse? (singles check) = some ⟨a.config, report⟩) :
    let o := every.run s t args
    let lines := ([.calls, .deps, .coverage].filter (Check.isConfigured c)).flatMap fun check =>
      ((single check).run s t (singles check)).findings
    let unwritten := unwritten? s.now t every a.report lines
    o.findings = lines ∧
      o.failure = unwritten.or (if lines = [] then none else some (.found "check" lines.length)) ∧
      ("check: no findings" ∈ o.output ↔ unwritten = none ∧ lines = []) ∧
      (a.report ≠ "" → unwritten = none → t.Sound → s.now.Valid →
        lines.length < 0x8000000000000000 → o.tree.Reports a.report lines.length) := by
  intro o lines
  have hresults : ∀ check ∈ every.checks c, check.comesToResult t c = true := fun check hmem =>
    hresult check (List.mem_filter.mp hmem).2
  have hchecks : every.checks c ≠ [] := by
    obtain ⟨check, hcheck⟩ := hsome
    have hall : check ∈ Check.all := by cases check <;> decide
    exact List.ne_nil_of_mem (List.mem_filter.mpr ⟨hall, hcheck⟩)
  have hends := ends_run (s := s) every rfl hargs hload hchecks
  have hlines : ∀ line ∈ (Sweep.make t c (every.checks c)).lines,
      line.toList.head? = some '[' := fun _ => Sweep.head?_of_mem_make
  have hmake := Sweep.make_eq hresults
  -- The sweep finds what the single commands print, so all that it says of its own lines it says of
  -- theirs.
  have hsum : (Sweep.make t c (every.checks c)).lines = lines := by
    rw [hmake]
    refine List.flatMap_congr fun check hmem => ?_
    obtain ⟨report, hreport⟩ := hsingles check (List.mem_filter.mp hmem).2
    exact (findings_run_single hreport hload (hresults check hmem)).symm
  have hnone : (Sweep.make t c (every.checks c)).failure = none := by rw [hmake]
  have hfindings := hends.findings_eq hlines
  have hfailure := hends.failure_eq hnone
  have hsays := hends.mem_output_iff hnone hlines
  have hsave := hends.save_of_not_unwritten hnone
  rw [hsum] at hfindings hfailure hsays hsave
  refine ⟨hfindings, hfailure, hsays, fun hpath hunwritten hs hnow hcount => ?_⟩
  obtain ⟨bytes, hread, hparse⟩ := parse_saved rfl hs hnow hcount (hsave hpath hunwritten)
  exact ⟨bytes, _, hread, hparse, rfl⟩

/-- A project with a class that imports a package, which a policy forbids with a comment, and that
    has no test. The project file is empty. -/
def sampleAudit (comment : String) : FileTree where
  root := [("w", .directory [("A.class", .file 0), ("classguard.yaml", .file 1),
    ("policy.yaml", .file 2), ("tests", .directory [])])]
  contents := #[
    ([0xca, 0xfe, 0xba, 0xbe, 0, 0, 0, 52, 0, 5, 1, 0, 1, 65, 7, 0, 1, 1, 0, 3, 113, 47, 66, 7, 0, 3,
      0, 1, 0, 2, 0, 4, 0, 0, 0, 0, 0, 0, 0, 0] : List UInt8).toByteArray,
    ByteArray.empty,
    (Text.utf8 ("alwaysForbidden: [\x7bpackage: q, comment: \"" ++ comment ++ "\"\x7d]")).toByteArray]
  current := ["w"]

/-- Variables with the settings of the project. -/
def sampleSurroundings : Surroundings where
  environment := [("CLASSGUARD_CLASSES", "A.class"), ("CLASSGUARD_TEST_CLASSES", "tests"),
    ("CLASSGUARD_POLICY", "policy.yaml")]
  now := .zero
  ask := fun _ => .ok []

/-- Two checks of the project are configured, and both come to a result. -/
theorem exists_sampleProject :
    ∃ c, Config.load (sampleAudit "no") sampleSurroundings.environment "classguard.yaml" = .ok c ∧
      (∃ check : Check, check.isConfigured c = true) ∧
      ∀ check : Check, check.isConfigured c = true →
        check.comesToResult (sampleAudit "no") c = true := by
  -- The project is evaluated only once, with all that is asked of it.
  have hload : (match Config.load (sampleAudit "no") sampleSurroundings.environment
        "classguard.yaml" with
      | .ok c => Check.deps.isConfigured c &&
          Check.all.all fun check => !check.isConfigured c || check.comesToResult (sampleAudit "no") c
      | .error _ => false) = true := by decide +kernel
  split at hload
  · next c heq =>
    rw [Bool.and_eq_true, List.all_eq_true] at hload
    refine ⟨c, heq, ⟨.deps, hload.1⟩, fun check hcheck => ?_⟩
    have hresult := hload.2 check (by cases check <;> decide)
    simpa [hcheck] using hresult
  · nomatch hload

theorem valid_sampleSurroundings : sampleSurroundings.now.Valid := by
  constructor <;> decide

/-- Every check of the project, with a report. -/
def sampleRun (comment report : String) : Outcome :=
  every.run sampleSurroundings (sampleAudit comment) ["--report", report]

theorem sampleRun_reported : (sampleAudit "no").isSound = true ∧
    (sampleRun "no" "r.md").findings.length = 2 ∧
    "wrote r.md" ∈ (sampleRun "no" "r.md").log ∧
    (∀ line ∈ (sampleRun "no" "r.md").findings, '\n' ∉ line.toList) ∧
    (unwritten? sampleSurroundings.now (sampleAudit "no") every "r.md"
      (sampleRun "no" "r.md").findings).isNone = true := by
  decide +kernel

theorem run_every_sample :
    ∃ c, Config.load (sampleAudit "no") sampleSurroundings.environment "classguard.yaml" = .ok c ∧
      (sampleRun "no" "r.md").findings.length = 2 ∧
      (sampleRun "no" "r.md").findings =
        ([.calls, .deps, .coverage].filter (Check.isConfigured c)).flatMap (fun check =>
          ((single check).run sampleSurroundings (sampleAudit "no") []).findings) ∧
      (sampleRun "no" "r.md").tree.Reports "r.md" 2 := by
  obtain ⟨c, hload, hsome, hresult⟩ := exists_sampleProject
  obtain ⟨hsound, hcount, -, -, hwritten⟩ := sampleRun_reported
  have hargs : CheckArguments.parse? ["--report", "r.md"] = some ⟨"classguard.yaml", "r.md"⟩ := rfl
  obtain ⟨hfindings, -, -, hreports⟩ := run_every (s := sampleSurroundings)
    (fun _ => []) hargs hload hsome hresult fun _ _ => ⟨"", rfl⟩
  have hfindings : (sampleRun "no" "r.md").findings = _ := hfindings
  rw [← hfindings, hcount] at hreports
  exact ⟨c, hload, hcount, hfindings, hreports (by decide) (Option.isNone_iff_eq_none.mp hwritten)
    (FileTree.sound_of_isSound hsound) valid_sampleSurroundings (by decide)⟩

/-- Where its report cannot be written, the command fails for that, whatever it has found. -/
theorem exists_unwritten_report :
    ∃ s t c, Config.load t s.environment "classguard.yaml" = .ok c ∧
      (∃ check : Check, check.isConfigured c = true) ∧
      (∀ check : Check, check.isConfigured c = true → check.comesToResult t c = true) ∧
      (every.run s t ["--report", "tests"]).findings.length = 2 ∧
      (every.run s t ["--report", "tests"]).failure ≠ some (.found "check" 2) := by
  obtain ⟨c, hload, hsome, hresult⟩ := exists_sampleProject
  have hrun : (sampleRun "no" "tests").findings.length = 2 ∧
      (sampleRun "no" "tests").failure.map Failure.message =
        some "report: write tests: open tests: is a directory" := by decide +kernel
  refine ⟨sampleSurroundings, sampleAudit "no", c, hload, hsome, hresult, hrun.1, fun hfailure => ?_⟩
  have hmessage := hrun.2
  rw [sampleRun, hfailure] at hmessage
  nomatch hmessage

/-! ### Reading reports -/

theorem exists_ends_of_wrote {a : CheckArguments} (hcommand : command.makesChecks = true)
    (hargs : CheckArguments.parse? args = some a)
    (hwrote : ("wrote " ++ a.report) ∈ (command.run s t args).log) :
    ∃ c, Ends s.now t command a.report (Sweep.make t c (command.checks c))
      (command.run s t args) := by
  rw [run_eq_runChecks hcommand, runChecks, hargs] at hwrote
  cases hload : Config.load t s.environment a.config with
  | error e => simp only [hload] at hwrote; nomatch hwrote
  | ok c =>
    by_cases hsome : command.checks c = []
    · simp only [hload, hsome] at hwrote
      nomatch hwrote
    · exact ⟨c, ends_run command hcommand hargs hload hsome⟩

/-- A report that a check command writes is read back up to the line feeds in the findings that
    have been printed. -/
theorem exists_parse_of_wrote {a : CheckArguments} (hcommand : command.makesChecks = true)
    (hargs : CheckArguments.parse? args = some a)
    (hwrote : ("wrote " ++ a.report) ∈ (command.run s t args).log) (hs : t.Sound)
    (hnow : s.now.Valid)
    (hcount : (command.run s t args).findings.length < 0x8000000000000000) :
    ∃ bytes, (command.run s t args).tree.read a.report = .ok bytes ∧ Report.parse bytes =
      .ok ⟨⟨command.name, (command.run s t args).findings.length, s.now⟩,
        (command.run s t args).findings.flatMap Report.readBack⟩ := by
  obtain ⟨c, hends⟩ := exists_ends_of_wrote hcommand hargs hwrote
  have hsave := hends.save_of_wrote hwrote
  rw [← hends.findings_eq fun _ => Sweep.head?_of_mem_make] at hsave
  exact parse_saved hcommand hs hnow hcount hsave

/-- A report that a check command writes has the number of the findings that have been printed. It
    is read back as these findings exactly if none of them has a line feed in it. -/
theorem parse_report {a : CheckArguments} (hcommand : command.makesChecks = true)
    (hargs : CheckArguments.parse? args = some a)
    (hwrote : ("wrote " ++ a.report) ∈ (command.run s t args).log) (hs : t.Sound)
    (hnow : s.now.Valid)
    (hcount : (command.run s t args).findings.length < 0x8000000000000000) :
    ∃ bytes r, (command.run s t args).tree.read a.report = .ok bytes ∧
      Report.parse bytes = .ok r ∧
      r.summary = ⟨command.name, (command.run s t args).findings.length, s.now⟩ ∧
      (r.lines = (command.run s t args).findings ∧ r.summary.findings = r.lines.length ↔
        ∀ line ∈ (command.run s t args).findings, '\n' ∉ line.toList) := by
  obtain ⟨bytes, hread, hparse⟩ := exists_parse_of_wrote hcommand hargs hwrote hs hnow hcount
  refine ⟨bytes, _, hread, hparse, rfl, ?_⟩
  -- The number in the summary is right as soon as the lines are.
  rw [← Report.flatMap_readBack_eq_iff, and_iff_left_iff_imp]
  intro hlines
  exact congrArg (fun lines : List String => (lines.length : Int)) hlines.symm

theorem parse_report_sample :
    "wrote r.md" ∈ (sampleRun "no" "r.md").log ∧
      ∃ bytes r, (sampleRun "no" "r.md").tree.read "r.md" = .ok bytes ∧
        Report.parse bytes = .ok r ∧ r.summary.findings = 2 ∧
        r.lines = (sampleRun "no" "r.md").findings := by
  obtain ⟨hsound, hcount, hwrote, hlines, -⟩ := sampleRun_reported
  obtain ⟨bytes, r, hread, hparse, hsummary, hiff⟩ := parse_report (s := sampleSurroundings)
    (a := ⟨"classguard.yaml", "r.md"⟩) (show every.makesChecks = true from rfl)
    (show CheckArguments.parse? ["--report", "r.md"] = _ from rfl) hwrote
    (FileTree.sound_of_isSound hsound) valid_sampleSurroundings
    (Nat.lt_of_le_of_lt (Nat.le_of_eq hcount) (by decide))
  refine ⟨hwrote, bytes, r, hread, hparse, ?_, (hiff.mpr hlines).1⟩
  rw [hsummary]
  exact congrArg Int.ofNat hcount

/-- A comment of two lines makes a finding of two lines, and what looks like a bullet there is read
    as a finding of its own. -/
theorem exists_report_of_more_lines :
    ∃ s t, "wrote r.md" ∈ (every.run s t ["--report", "r.md"]).log ∧
      ∃ bytes r, (every.run s t ["--report", "r.md"]).tree.read "r.md" = .ok bytes ∧
        Report.parse bytes = .ok r ∧ (every.run s t ["--report", "r.md"]).findings.length = 2 ∧
        r.summary.findings = 2 ∧ r.lines.length = 3 := by
  have hrun : (sampleAudit "a\\n- b").isSound = true ∧
      (sampleRun "a\\n- b" "r.md").findings.length = 2 ∧
      "wrote r.md" ∈ (sampleRun "a\\n- b" "r.md").log ∧
      ((sampleRun "a\\n- b" "r.md").findings.flatMap Report.readBack).length = 3 := by
    decide +kernel
  obtain ⟨hsound, hcount, hwrote, hlines⟩ := hrun
  obtain ⟨bytes, hread, hparse⟩ := exists_parse_of_wrote (s := sampleSurroundings)
    (a := ⟨"classguard.yaml", "r.md"⟩) (show every.makesChecks = true from rfl)
    (show CheckArguments.parse? ["--report", "r.md"] = _ from rfl) hwrote
    (FileTree.sound_of_isSound hsound) valid_sampleSurroundings
    (Nat.lt_of_le_of_lt (Nat.le_of_eq hcount) (by decide))
  exact ⟨sampleSurroundings, sampleAudit "a\\n- b", hwrote, bytes, _, hread, hparse, hcount,
    congrArg Int.ofNat hcount, hlines⟩

end Command

end ClassAudit
