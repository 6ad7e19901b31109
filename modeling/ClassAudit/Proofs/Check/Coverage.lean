import ClassAudit.Proofs.Check.Exclusion
import ClassAudit.Proofs.Files.Completeness

/-! # Which tests are missing

    The check for tests looks for the test of each class on its own, root by root, and drops the
    classes that are left out at the end. Put together, it finds the classes that need a test, are
    not left out and have none, in the order in which they are visited, and nothing else. It comes
    to a result whenever all classes can be read and it can be told which tests there are.
-/

namespace ClassAudit

variable {classes : List (String × ClassFile)} {lines : List String}

open ClassSource FileTree

namespace MissingTest

variable {t : FileTree} {testClasses : Path} {suffix : ByteString} {exclude : List ByteString}
  {cf : ClassFile}

/-! ### One class -/

/-- A class that needs a test. -/
structure Needed (exclude : List ByteString) (cf : ClassFile) : Prop where
  dollar_not_mem : '$' ∉ (ClassName.simple cf.name).toList
  ne_package : ClassName.simple cf.name ≠ "package-info"
  ne_module : ClassName.simple cf.name ≠ "module-info"
  access : ∀ flag ∈ [Access.isInterface, Access.isAbstract, Access.isAnnotationType,
    Access.isSynthetic, Access.isModule], cf.access &&& flag = 0
  not_excluded : ∀ start ∈ exclude, ¬start.bytes <+: (ClassName.binary cf.name : ByteString).bytes

theorem isNeeded_iff : isNeeded exclude cf = true ↔ Needed exclude cf := by
  simp only [isNeeded, Access.hasAny, ByteString.startsWith, Bool.and_eq_true, Bool.not_eq_true',
    Bool.or_eq_false_iff, List.any_eq_false, List.contains_eq_mem, decide_eq_false_iff_not,
    beq_eq_false_iff_ne, bne_iff_ne, ne_eq, not_not, List.isPrefixOf_iff_prefix]
  constructor
  · rintro ⟨⟨⟨⟨hdollar, hpackage⟩, hmodule⟩, haccess⟩, hexclude⟩
    exact ⟨hdollar, hpackage, hmodule, haccess, hexclude⟩
  · rintro ⟨hdollar, hpackage, hmodule, haccess, hexclude⟩
    exact ⟨⟨⟨⟨hdollar, hpackage⟩, hmodule⟩, haccess⟩, hexclude⟩

instance : Decidable (Needed exclude cf) :=
  decidable_of_iff _ isNeeded_iff

/-- There is something where the test of a class belongs. -/
def HasTest (t : FileTree) (testClasses : Path) (suffix : ByteString) (cf : ClassFile) : Prop :=
  (t.stat (testPath testClasses suffix cf)).isOk = true

instance : Decidable (HasTest t testClasses suffix cf) :=
  inferInstanceAs (Decidable (_ = true))

/-- It can be told whether a class has its test, if it needs one. -/
def IsTold (t : FileTree) (testClasses : Path) (suffix : ByteString) (exclude : List ByteString)
    (cf : ClassFile) : Prop :=
  Needed exclude cf → ∀ e, t.stat (testPath testClasses suffix cf) = .error e →
    e.reason = .missing

def IsMissing (t : FileTree) (testClasses : Path) (suffix : ByteString)
    (exclude : List ByteString) (cf : ClassFile) : Prop :=
  Needed exclude cf ∧ ¬HasTest t testClasses suffix cf

instance : Decidable (IsMissing t testClasses suffix exclude cf) :=
  inferInstanceAs (Decidable (_ ∧ _))

/-- The missing test of a class. -/
def ofClass (suffix : ByteString) (cf : ClassFile) : MissingTest :=
  ⟨ClassName.binary cf.name, ClassName.binary ((cf.name : ByteString) ++ suffix).shown⟩

/-- A class is taken if it can be told whether it has its test. Then what is added depends on the
    class alone. -/
theorem handler_eq_none_iff {start out : List MissingTest} {name : String} :
    handler t testClasses suffix exclude start name cf = (out, none) ↔
      IsTold t testClasses suffix exclude cf ∧
        out = start ++
          if IsMissing t testClasses suffix exclude cf then [ofClass suffix cf] else [] := by
  have hpair : ∀ found : List MissingTest, (found, (none : Option Failure)) = (out, none) ↔
      out = found := by
    intro found
    rw [Prod.mk.injEq, and_iff_left rfl, eq_comm]
  unfold handler
  by_cases hneeded : isNeeded exclude cf = true
  · have hclass := isNeeded_iff.mp hneeded
    rw [if_pos hneeded]
    dsimp only
    rw [← testPath]
    cases hstat : t.stat (testPath testClasses suffix cf) with
    | ok e =>
      have hhas : HasTest t testClasses suffix cf := by
        rw [HasTest, hstat]
        rfl
      have htold : IsTold t testClasses suffix exclude cf := by
        intro _ e' he'
        rw [hstat] at he'
        cases he'
      rw [if_neg fun h => h.2 hhas, List.append_nil, and_iff_right htold]
      exact hpair start
    | error e =>
      have hhas : ¬HasTest t testClasses suffix cf := by
        rw [HasTest, hstat]
        exact Bool.false_ne_true
      have htold : IsTold t testClasses suffix exclude cf ↔ e.reason = .missing := by
        simp [IsTold, hclass, hstat]
      rw [if_pos ⟨hclass, hhas⟩, htold]
      by_cases hreason : e.reason = .missing
      · simp only [hreason, if_true, true_and]
        exact hpair _
      · simp [hreason]
  · have hclass : ¬Needed exclude cf := fun h => hneeded (isNeeded_iff.mpr h)
    have htold : IsTold t testClasses suffix exclude cf := fun h => absurd h hclass
    rw [if_neg hneeded, if_neg fun h => hclass h.1, List.append_nil, and_iff_right htold]
    exact hpair start

/-! ### All classes -/

def missingOf (t : FileTree) (testClasses : Path) (suffix : ByteString)
    (exclude : List ByteString) (classes : List (String × ClassFile)) : List MissingTest :=
  (classes.filter fun call => IsMissing t testClasses suffix exclude call.2).map fun call =>
    ofClass suffix call.2

/-- One class after the other is taken if each of them can be, and what is added are the missing
    tests in their order. -/
theorem takes_handler_iff {start out : List MissingTest} :
    Takes (handler t testClasses suffix exclude) start classes out ↔
      (∀ call ∈ classes, IsTold t testClasses suffix exclude call.2) ∧
        out = start ++ missingOf t testClasses suffix exclude classes := by
  induction classes generalizing start with
  | nil =>
    constructor
    · intro h
      cases h
      simp [missingOf]
    · rintro ⟨-, rfl⟩
      simpa [missingOf] using Takes.nil
  | cons call classes ih =>
    have hsplit : missingOf t testClasses suffix exclude (call :: classes) =
        (if IsMissing t testClasses suffix exclude call.2 then [ofClass suffix call.2] else []) ++
          missingOf t testClasses suffix exclude classes := by
      unfold missingOf
      by_cases hmissing : IsMissing t testClasses suffix exclude call.2
      · simp [hmissing]
      · simp [hmissing]
    rw [List.forall_mem_cons, hsplit, ← List.append_assoc]
    constructor
    · intro h
      cases h with
      | cons hcall hcalls =>
        obtain ⟨htold, rfl⟩ := handler_eq_none_iff.mp hcall
        obtain ⟨hothers, hout⟩ := ih.mp hcalls
        exact ⟨⟨htold, hothers⟩, hout⟩
    · rintro ⟨⟨htold, hothers⟩, hout⟩
      exact .cons (handler_eq_none_iff.mpr ⟨htold, rfl⟩) (ih.mpr ⟨hothers, hout⟩)

theorem exists_append_of_parses {sources sources' : List ClassSource}
    (h : List.Forall₂ Parses (sources ++ sources') classes) :
    ∃ here others, classes = here ++ others ∧ List.Forall₂ Parses sources here ∧
      List.Forall₂ Parses sources' others :=
  ⟨_, _, (List.take_append_drop sources.length classes).symm,
    (List.forall₂_take_append _ _ _ h.flip).flip, (List.forall₂_drop_append _ _ _ h.flip).flip⟩

theorem missingOf_append (classes classes' : List (String × ClassFile)) :
    missingOf t testClasses suffix exclude (classes ++ classes') =
      missingOf t testClasses suffix exclude classes ++
        missingOf t testClasses suffix exclude classes' := by
  unfold missingOf
  rw [List.filter_append, List.map_append]

theorem find_eq_ok_iff {root : Path} {missing : List MissingTest} :
    find t root testClasses suffix exclude = .ok missing ↔
      ∃ classes, List.Forall₂ Parses (ofRoot t root) classes ∧
        (∀ call ∈ classes, IsTold t testClasses (usedSuffix suffix) exclude call.2) ∧
        missing = missingOf t testClasses (usedSuffix suffix) exclude classes := by
  rw [find_eq_ok, visitAll_eq_none_iff]
  simp only [takes_handler_iff, List.nil_append]

/-- Root by root, the missing tests are those of all classes together. -/
theorem mapM_find_iff {roots : List Path} {found : List MissingTest} :
    (∃ missing, (roots.mapM fun root => find t root testClasses suffix exclude) = .ok missing ∧
        found = missing.flatten) ↔
      ∃ classes, List.Forall₂ Parses (ofRoots t roots) classes ∧
        (∀ call ∈ classes, IsTold t testClasses (usedSuffix suffix) exclude call.2) ∧
        found = missingOf t testClasses (usedSuffix suffix) exclude classes := by
  induction roots generalizing found with
  | nil =>
    constructor
    · rintro ⟨missing, hmap, rfl⟩
      obtain rfl : missing = [] := (Except.ok.inj hmap).symm
      exact ⟨[], .nil, by simp, rfl⟩
    · rintro ⟨classes, hparses, -, rfl⟩
      cases hparses
      exact ⟨[], rfl, rfl⟩
  | cons root roots ih =>
    rw [List.mapM_cons, ofRoots, List.flatMap_cons, ← ofRoots]
    constructor
    · rintro ⟨missing, hmap, rfl⟩
      obtain ⟨first, hfind, hmap⟩ := except_bind_eq_ok.mp hmap
      obtain ⟨rest, hrest, hmap⟩ := except_bind_eq_ok.mp hmap
      obtain rfl := (Except.ok.inj hmap).symm
      obtain ⟨classes, hparses, htold, rfl⟩ := find_eq_ok_iff.mp hfind
      obtain ⟨classes', hparses', htold', hrest'⟩ := ih.mp ⟨rest, hrest, rfl⟩
      refine ⟨classes ++ classes', List.rel_append hparses hparses', ?_, ?_⟩
      · exact List.forall_mem_append.mpr ⟨htold, htold'⟩
      · rw [List.flatten_cons, hrest', missingOf_append]
    · rintro ⟨classes, hparses, htold, rfl⟩
      obtain ⟨here, others, rfl, hhere, hothers⟩ := exists_append_of_parses hparses
      obtain ⟨htoldHere, htoldOthers⟩ := List.forall_mem_append.mp htold
      obtain ⟨rest, hrest, hfound⟩ := ih.mpr ⟨others, hothers, htoldOthers, rfl⟩
      have hfirst := find_eq_ok_iff.mpr ⟨here, hhere, htoldHere, rfl⟩
      refine ⟨missingOf t testClasses (usedSuffix suffix) exclude here :: rest,
        except_bind_eq_ok.mpr ⟨_, hfirst, except_bind_eq_ok.mpr ⟨rest, hrest, rfl⟩⟩, ?_⟩
      rw [missingOf_append, hfound, List.flatten_cons]

end MissingTest

namespace Config

/-- The classes of a project, all of which can be read, and of all of which it can be told whether
    they have their tests. -/
structure Surveys (c : Config) (t : FileTree) (classes : List (String × ClassFile)) : Prop where
  parses : List.Forall₂ Parses (ofRoots t c.classes) classes
  isTold : ∀ call ∈ classes, MissingTest.IsTold t c.testClasses
    (MissingTest.usedSuffix c.coverageSuffix) c.coverageExclude call.2

/-- A class of a project needs a test, is not left out and has no test. -/
def Untested (c : Config) (t : FileTree) (cf : ClassFile) : Prop :=
  MissingTest.Needed c.coverageExclude cf ∧ c.excludes cf.name = false ∧
    ¬MissingTest.HasTest t c.testClasses (MissingTest.usedSuffix c.coverageSuffix) cf

instance (c : Config) (t : FileTree) (cf : ClassFile) : Decidable (c.Untested t cf) :=
  inferInstanceAs (Decidable (_ ∧ _ ∧ _))

/-- Of the missing tests, those of classes that are left out are dropped. -/
theorem filter_isReported_missingOf {c : Config} {t : FileTree}
    (hdots : ∀ call ∈ classes, '.' ∉ call.2.name.toList) :
    (MissingTest.missingOf t c.testClasses (MissingTest.usedSuffix c.coverageSuffix)
        c.coverageExclude classes).filter (MissingTest.isReported c) =
      (classes.filter fun call => c.Untested t call.2).map fun call =>
        MissingTest.ofClass (MissingTest.usedSuffix c.coverageSuffix) call.2 := by
  unfold MissingTest.missingOf
  rw [List.filter_map, List.filter_filter]
  refine congrArg _ (List.filter_congr fun call hcall => ?_)
  rw [← Bool.decide_coe (_ && _)]
  refine decide_eq_decide.mpr ?_
  simp only [Function.comp, MissingTest.isReported, MissingTest.ofClass,
    ClassName.internal_binary (hdots call hcall), Bool.and_eq_true, Bool.not_eq_true',
    decide_eq_true_eq, Untested]
  exact and_left_comm

end Config

namespace Check

variable {c : Config} {t : FileTree}

/-! ### The check -/

theorem testFindings_eq_ok_iff (htests : c.testClasses.isEmpty = false) :
    testFindings t c = .ok lines ↔ ∃ classes, c.Surveys t classes ∧
      lines = ((MissingTest.missingOf t c.testClasses (MissingTest.usedSuffix c.coverageSuffix)
        c.coverageExclude classes).filter (MissingTest.isReported c)).map MissingTest.text := by
  unfold testFindings
  rw [if_neg (by simp [htests])]
  constructor
  · intro h
    obtain ⟨missing, hmap, hlines⟩ := except_bind_eq_ok.mp h
    obtain ⟨classes, hparses, htold, hfound⟩ := MissingTest.mapM_find_iff.mp ⟨missing, hmap, rfl⟩
    refine ⟨classes, ⟨hparses, htold⟩, ?_⟩
    rw [← hfound]
    exact (Except.ok.inj hlines).symm
  · rintro ⟨classes, hsurvey, rfl⟩
    obtain ⟨missing, hmap, hfound⟩ :=
      MissingTest.mapM_find_iff.mpr ⟨classes, hsurvey.parses, hsurvey.isTold, rfl⟩
    rw [hfound]
    exact except_bind_eq_ok.mpr ⟨missing, hmap, rfl⟩

theorem run_of_findings (check : Check) (h : check.findings t c = .ok lines) :
    check.run t c = Failure.ofFindings check.title lines := by
  rw [run, h]

theorem comesToResult_of_findings (check : Check) (h : check.findings t c = .ok lines) :
    check.comesToResult t c = true := by
  rw [comesToResult, run_of_findings check h]
  cases lines <;> rfl

/-- **The check for tests is exact.** It comes to a result if and only if all classes can be read
    and it can be told of each whether it has its test. Then it finds the classes that need a test,
    are not left out and have none, in the order in which they are visited, and nothing else. -/
theorem run_coverage_exact (htests : c.testClasses.isEmpty = false) :
    (coverage.comesToResult t c = true ↔ ∃ classes, c.Surveys t classes) ∧
      ∀ classes, c.Surveys t classes → (∀ call ∈ classes, '.' ∉ call.2.name.toList) →
        coverage.run t c = Failure.ofFindings coverage.title
          ((classes.filter fun call => c.Untested t call.2).map fun call =>
            (MissingTest.ofClass (MissingTest.usedSuffix c.coverageSuffix) call.2).text) := by
  refine ⟨⟨fun h => ?_, fun h => ?_⟩, fun classes hsurvey hdots => ?_⟩
  · obtain ⟨lines, hfindings⟩ := exists_findings h
    obtain ⟨classes, hsurvey, -⟩ := (testFindings_eq_ok_iff htests).mp hfindings
    exact ⟨classes, hsurvey⟩
  · obtain ⟨classes, hsurvey⟩ := h
    have hfindings := (testFindings_eq_ok_iff htests).mpr ⟨classes, hsurvey, rfl⟩
    exact comesToResult_of_findings coverage hfindings
  · have hfindings := (testFindings_eq_ok_iff htests).mpr ⟨classes, hsurvey, rfl⟩
    rw [Config.filter_isReported_missingOf hdots, List.map_map] at hfindings
    exact run_of_findings coverage hfindings

theorem dot_not_mem_of_parses {sources : List ClassSource}
    (hparses : List.Forall₂ Parses sources classes) (h : sources.all isDotless = true) :
    ∀ call ∈ classes, '.' ∉ call.2.name.toList := by
  induction hparses with
  | nil => simp
  | cons hfirst _ ih =>
    rw [List.all_cons, Bool.and_eq_true] at h
    refine List.forall_mem_cons.mpr ⟨?_, ih h.2⟩
    cases hfirst with
    | readable hparse => simpa [isDotless, hparse] using h.1

/-- A project of class files, with one class for each reason to have no test: it is left out, its
    name starts with a prefix that is left out, it is nested, it is an interface, it has a test. -/
def testedProject : Config where
  classes := ["A.class", "B.class", "I.class", "N.class", "G.class", "P.class"]
  testClasses := "tests"
  policy := .empty
  forbiddenCalls := []
  coverageSuffix := .empty
  coverageExclude := ["g."]
  exclude := ["p/*.class"]

def testedTree : FileTree where
  root :=
    [("A.class", .file 0), ("B.class", .file 1), ("I.class", .file 2), ("N.class", .file 3),
      ("G.class", .file 4), ("P.class", .file 5),
      ("tests", .directory [("b", .directory [("BTest.class", .file 0)])])]
  contents :=
    #[(sampleClass "A").toByteArray, (sampleClass "b/B").toByteArray,
      -- An interface has another flag of access.
      ((sampleClass "I").set 17 2).toByteArray, (sampleClass "A$1").toByteArray,
      (sampleClass "g/A").toByteArray, (sampleClass "p/A").toByteArray]
  current := []

theorem tested_facts :
    testedProject.testClasses.isEmpty = false ∧
    coverage.comesToResult testedTree testedProject = true ∧
    (ofRoots testedTree testedProject.classes).all isDotless = true ∧
    (coverage.run testedTree testedProject).map Failure.message =
      some "Classes without tests found:\nA has no test class ATest" := by
  decide +kernel

theorem run_coverage_exact_sample :
    testedProject.testClasses.isEmpty = false ∧
    ∃ classes, testedProject.Surveys testedTree classes ∧
      (∀ call ∈ classes, '.' ∉ call.2.name.toList) ∧
      (Failure.ofFindings coverage.title
        ((classes.filter fun call => testedProject.Untested testedTree call.2).map fun call =>
          (MissingTest.ofClass (MissingTest.usedSuffix .empty) call.2).text)).map Failure.message =
        some "Classes without tests found:\nA has no test class ATest" := by
  obtain ⟨htests, hresult, hdotless, hmessage⟩ := tested_facts
  obtain ⟨hreads, hexact⟩ := run_coverage_exact htests (t := testedTree)
  obtain ⟨classes, hsurvey⟩ := hreads.mp hresult
  have hdots := dot_not_mem_of_parses hsurvey.parses hdotless
  rw [hexact classes hsurvey hdots] at hmessage
  exact ⟨htests, classes, hsurvey, hdots, hmessage⟩

end Check

end ClassAudit
