import Mathlib.Data.List.Induction
import ClassAudit.Call.Site
import ClassAudit.ClassFile.Collector
import ClassAudit.Import.Basic

/-! # What collectors hold

    After any sequence of visits and clears a collector holds what the analysis gave for the classes
    that were visited since the last clear, one after the other. A visit that fails changes nothing:
    however far the analysis had come in the class, none of it is kept, and all that follows is as if
    the visit had not been made.
-/

namespace ClassAudit

namespace Collector

variable {ε α : Type}

/-! ### Actions one after the other -/

def run (c : Collector ε α) (actions : List Action) : Collector ε α :=
  actions.foldl perform c

/-- The error that an action reports, if it fails. -/
def report (c : Collector ε α) : Action → Option ε
  | .visit cf =>
    match c.visit cf with
    | .ok _ => none
    | .error e => some e
  | .clear => none

/-- What actions report, one after the other. -/
def reports (c : Collector ε α) : List Action → List (Option ε)
  | [] => []
  | action :: actions => c.report action :: (c.perform action).reports actions

def Action.visited? : Action → Option ClassFile
  | .visit cf => some cf
  | .clear => none

/-- The classes that were visited since the last clear, in order. -/
def sinceClear (actions : List Action) : List ClassFile :=
  (actions.reverse.takeWhile (·.visited?.isSome)).reverse.filterMap Action.visited?

/-- What an analysis gives for those classes on which it does not fail, one after the other. -/
def gathered (analysis : ClassFile → Except ε (List α)) (classes : List ClassFile) : List α :=
  (classes.filterMap fun cf => (analysis cf).toOption).flatten

theorem sinceClear_visit (actions : List Action) (cf : ClassFile) :
    sinceClear (actions ++ [.visit cf]) = sinceClear actions ++ [cf] := by
  simp [sinceClear, Action.visited?]

theorem sinceClear_clear (actions : List Action) : sinceClear (actions ++ [.clear]) = [] := by
  simp [sinceClear, Action.visited?]

theorem run_append (c : Collector ε α) (front back : List Action) :
    c.run (front ++ back) = (c.run front).run back :=
  List.foldl_append

/-! ### One action -/

theorem perform_visit_ok {c : Collector ε α} {cf : ClassFile} {found : List α}
    (h : c.analysis cf = .ok found) :
    c.perform (.visit cf) = { c with results := c.results ++ found } := by
  simp [perform, visit, h, Except.map]

theorem perform_visit_error {c : Collector ε α} {cf : ClassFile} {e : ε}
    (h : c.analysis cf = .error e) : c.perform (.visit cf) = c := by
  simp [perform, visit, h, Except.map]

theorem analysis_perform (c : Collector ε α) (action : Action) :
    (c.perform action).analysis = c.analysis := by
  cases action with
  | clear => rfl
  | visit cf =>
    cases h : c.analysis cf with
    | ok found => rw [perform_visit_ok h]
    | error e => rw [perform_visit_error h]

/-- What an action reports depends on the analysis alone. -/
theorem report_eq (c : Collector ε α) (action : Action) :
    c.report action = (new c.analysis).report action := by
  cases action with
  | clear => rfl
  | visit cf =>
    simp only [report, visit, new]
    cases c.analysis cf <;> rfl

/-! ### Any number of actions -/

theorem analysis_run (c : Collector ε α) (actions : List Action) :
    (c.run actions).analysis = c.analysis := by
  induction actions generalizing c with
  | nil => rfl
  | cons action actions ih => exact (ih (c.perform action)).trans (analysis_perform c action)

/-- The results after some actions. The induction goes over the last action, since a clear makes all
    actions in front of it irrelevant. -/
theorem results_run (analysis : ClassFile → Except ε (List α)) (actions : List Action) :
    ((new analysis).run actions).results = gathered analysis (sinceClear actions) := by
  induction actions using List.reverseRecOn with
  | nil => rfl
  | append_singleton actions action ih =>
    have hlast : (new analysis).run (actions ++ [action]) =
        ((new analysis).run actions).perform action := run_append _ _ _
    have hanalysis : ((new analysis).run actions).analysis = analysis := analysis_run _ _
    rw [hlast]
    cases action with
    | clear =>
      rw [sinceClear_clear]
      rfl
    | visit cf =>
      rw [sinceClear_visit, gathered, List.filterMap_append, List.flatten_append]
      cases h : analysis cf with
      | ok found =>
        have hstep := perform_visit_ok (c := (new analysis).run actions) (hanalysis ▸ h)
        simp only [hstep, ih, gathered, List.filterMap_cons, h, Except.toOption]
        simp
      | error e =>
        have hstep := perform_visit_error (c := (new analysis).run actions) (hanalysis ▸ h)
        simp only [hstep, ih, gathered, List.filterMap_cons, h, Except.toOption]
        simp

theorem reports_eq (c : Collector ε α) (actions : List Action) :
    c.reports actions = actions.map (new c.analysis).report := by
  induction actions generalizing c with
  | nil => rfl
  | cons action actions ih =>
    rw [reports, List.map_cons, report_eq, ih, analysis_perform]

theorem run_without {c : Collector ε α} {cf : ClassFile} {e : ε} (h : c.analysis cf = .error e)
    (front back : List Action) : c.run (front ++ .visit cf :: back) = c.run (front ++ back) := by
  have hfront : (c.run front).analysis cf = .error e := by rw [analysis_run, h]
  rw [run_append, run_append]
  exact congrArg (run · back) (perform_visit_error hfront)

/-! ### Exactness -/

/-- What can be expected of a collector of an analysis. -/
structure Exact (analysis : ClassFile → Except ε (List α)) : Prop where
  /-- It holds what the analysis gave since the last clear. -/
  results : ∀ actions,
    ((new analysis).run actions).results = gathered analysis (sinceClear actions)
  /-- A visit reports the error of the analysis, whatever has been done before. -/
  reports : ∀ actions, (new analysis).reports actions = actions.map fun action =>
    action.visited?.bind fun cf =>
      match analysis cf with
      | .ok _ => none
      | .error e => some e
  /-- A visit that fails leaves the collector as it was. -/
  unchanged : ∀ front cf e, analysis cf = .error e →
    (new analysis).run (front ++ [.visit cf]) = (new analysis).run front
  /-- What follows a visit that fails is as if the visit had not been made. -/
  without : ∀ front cf e back, analysis cf = .error e →
    (new analysis).run (front ++ .visit cf :: back) = (new analysis).run (front ++ back) ∧
    ((new analysis).run (front ++ [.visit cf])).reports back =
      ((new analysis).run front).reports back

theorem exact (analysis : ClassFile → Except ε (List α)) : Exact analysis where
  results := results_run analysis
  reports := by
    intro actions
    rw [reports_eq]
    refine List.map_congr_left fun action _ => ?_
    cases action with
    | clear => rfl
    | visit cf =>
      simp only [report, visit, new, Action.visited?, Option.bind_some]
      cases analysis cf <;> rfl
  unchanged := by
    intro front cf e h
    have hleft := run_without (c := new analysis) h front []
    rwa [List.append_nil] at hleft
  without := by
    intro front cf e back h
    have hleft := run_without (c := new analysis) h front []
    rw [List.append_nil] at hleft
    exact ⟨run_without h front back, by rw [hleft]⟩

end Collector

/-- **Collectors are exact and fail atomically**, the one of calls, for each set of targets that is
    not empty, and the one of imports. -/
theorem collectors_exact :
    (∀ targets, targets ≠ [] → ∃ set, TargetSet.ofList targets = .ok set ∧
      Collector.Exact (CallSite.find set)) ∧
    Collector.Exact fun cf => (ClassImports.ofClass cf).map ([·]) := by
  refine ⟨?_, Collector.exact _⟩
  intro targets hne
  cases targets with
  | nil => exact absurd rfl hne
  | cons target targets => exact ⟨⟨target :: targets⟩, rfl, Collector.exact _⟩

/-- A class whose methods call `p.T.x`, each with a descriptor. -/
def sampleCaller (descriptors : List String) : ClassFile :=
  ⟨0, 52, 1, "p/A", "java/lang/Object", [], "", "", [], [], descriptors.map fun descriptor =>
    ⟨9, "m", "()V", "", [], [], some ⟨[⟨0, ⟨184⟩, .member "p/T" "x" descriptor⟩], [], [], []⟩⟩⟩

/-- The second class has a call that cannot be read behind one that counts. The call that counts is
    not kept, and those of the classes around it are. -/
theorem collectors_exact_sample :
    ∃ set : TargetSet, TargetSet.ofList [⟨"p.T", "void x()"⟩] = .ok set ∧
      (∃ e, CallSite.find set (sampleCaller ["()V", "("]) = .error e) ∧
      ((Collector.new (CallSite.find set)).run
        [.clear, .visit (sampleCaller ["()V"]), .visit (sampleCaller ["()V", "("]),
          .visit (sampleCaller ["()V"])]).results.length = 2 := by
  obtain ⟨set, hset, hexact⟩ := collectors_exact.1 [⟨"p.T", "void x()"⟩] (List.cons_ne_nil _ _)
  obtain rfl : ⟨[⟨"p.T", "void x()"⟩]⟩ = set := Except.ok.inj hset
  have hbad : (CallSite.find ⟨[⟨"p.T", "void x()"⟩]⟩ (sampleCaller ["()V", "("])).isOk = false := by
    decide +kernel
  cases h : CallSite.find ⟨[⟨"p.T", "void x()"⟩]⟩ (sampleCaller ["()V", "("]) with
  | ok sites =>
    rw [h] at hbad
    nomatch hbad
  | error e =>
    refine ⟨_, rfl, ⟨e, h⟩, ?_⟩
    have hleft := (hexact.without [.clear, .visit (sampleCaller ["()V"])] _ e
      [.visit (sampleCaller ["()V"])] h).1
    rw [List.cons_append, List.cons_append, List.nil_append] at hleft
    rw [hleft, hexact.results]
    decide +kernel

end ClassAudit
