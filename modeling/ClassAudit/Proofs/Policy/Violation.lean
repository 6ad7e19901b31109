import ClassAudit.Policy.Violation
import ClassAudit.Proofs.Policy.Rule
import ClassAudit.Proofs.Text.Utf8

/-! # Violations, exactly

    Which imports a policy does not permit, as a relation: `Policy.Objects` says with which comment
    an import is a violation, and `Policy.Reports` in which order the violations of classes come.
    `Policy.violations` gives exactly these.
-/

namespace ClassAudit

/-- A group is the first one for a package. -/
def RuleGroup.First (groups : List RuleGroup) (package : ByteString) (g : RuleGroup) : Prop :=
  g.name = package ∧ ∃ before after, groups = before ++ g :: after ∧
    ∀ x ∈ before, x.name ≠ package

theorem RuleGroup.find?_eq_some_iff {groups : List RuleGroup} {package : ByteString}
    {g : RuleGroup} : find? groups package = some g ↔ First groups package g := by
  unfold find? First
  rw [List.find?_eq_some_iff_append]
  simp

theorem RuleGroup.find?_eq_none_iff {groups : List RuleGroup} {package : ByteString} :
    find? groups package = none ↔ ∀ g ∈ groups, g.name ≠ package := by
  unfold find?
  simp

namespace Policy

/-! ### What is a violation -/

/-- The package of the language and the packages below it are open to all classes, and so is what
    is always allowed. -/
def Open (p : Policy) (package : ByteString) : Prop :=
  Rule.Covers ⟨"java.lang", true, ""⟩ package ∨ ∃ r ∈ p.alwaysAllowed, r.Covers package

/-- The rules speak against importing a package into the classes of another. -/
inductive Objects (p : Policy) (home package : ByteString) : String → Prop where
  /-- No rule of the allowing group covers the package. -/
  | notAllowed {g : RuleGroup} :
      RuleGroup.First p.allowed home g → Rule.Uncovered g.dependencies package →
      Objects p home package g.comment
  /-- A rule for all classes forbids the package. -/
  | alwaysForbidden {r : Rule} :
      (∀ g ∈ p.allowed, g.name ≠ home) → Rule.Longest p.alwaysForbidden package r →
      Objects p home package r.comment
  /-- A rule of the forbidding group covers the package. -/
  | forbidden {g : RuleGroup} {r : Rule} :
      (∀ g ∈ p.allowed, g.name ≠ home) → Rule.Uncovered p.alwaysForbidden package →
      RuleGroup.First p.forbidden home g → Rule.Longest g.dependencies package r →
      Objects p home package (if r.comment = "" then g.comment else r.comment)

/-- The violations of one class: one for each import that is neither of the class's own package nor
    open to all classes, and to which the rules object. They come in the order of the bytes of the
    package names. -/
structure ClassReport (p : Policy) (c : ClassImports) (vs : List Violation) : Prop where
  className : ∀ v ∈ vs, v.className = c.className
  increasing : vs.Pairwise fun v w => Text.utf8 v.package < Text.utf8 w.package
  mem_iff : ∀ package comment, ⟨c.className, package, comment⟩ ∈ vs ↔
    package ∈ c.imports.toList ∧ package ≠ c.package ∧ ¬ p.Open package ∧
      p.Objects c.package package comment

/-- The violations of classes, class by class. -/
inductive Reports (p : Policy) : List ClassImports → List Violation → Prop where
  | nil : Reports p [] []
  | cons {c : ClassImports} {classes : List ClassImports} {vs rest : List Violation} :
      ClassReport p c vs → Reports p classes rest → Reports p (c :: classes) (vs ++ rest)

/-! ### One import -/

theorem isAlwaysAllowed_iff {p : Policy} {package : String} :
    p.isAlwaysAllowed package = true ↔ p.Open package := by
  unfold isAlwaysAllowed Open languageRule Rule.allow
  rw [Bool.or_eq_true, Rule.covers_iff, Option.isSome_iff_ne_none, Ne, Rule.best?_eq_none_iff]
  simp [Rule.Uncovered]

theorem objection?_eq_some_iff {p : Policy} {home package comment : String} :
    p.objection? home package = some comment ↔ p.Objects home package comment := by
  unfold objection?
  constructor
  · -- The cases in the order in which they are asked.
    intro h
    cases hallowed : RuleGroup.find? p.allowed home with
    | some group =>
      simp only [hallowed] at h
      cases hbest : Rule.best? group.dependencies package with
      | some r => simp [hbest] at h
      | none =>
        simp only [hbest, Option.some.injEq] at h
        exact h ▸ .notAllowed (RuleGroup.find?_eq_some_iff.mp hallowed)
          (Rule.best?_eq_none_iff.mp hbest)
    | none =>
      have hnone := RuleGroup.find?_eq_none_iff.mp hallowed
      simp only [hallowed] at h
      cases halways : Rule.best? p.alwaysForbidden package with
      | some r =>
        simp only [halways, Option.some.injEq] at h
        exact h ▸ .alwaysForbidden hnone (Rule.best?_eq_some_iff.mp halways)
      | none =>
        simp only [halways] at h
        cases hforbidden : RuleGroup.find? p.forbidden home with
        | none => simp [hforbidden] at h
        | some group =>
          simp only [hforbidden, Option.map_eq_some_iff] at h
          obtain ⟨r, hbest, rfl⟩ := h
          exact .forbidden hnone (Rule.best?_eq_none_iff.mp halways)
            (RuleGroup.find?_eq_some_iff.mp hforbidden) (Rule.best?_eq_some_iff.mp hbest)
  · -- Each way to object answers all questions that are asked before it.
    intro h
    cases h with
    | notAllowed hfirst huncovered =>
      simp only [RuleGroup.find?_eq_some_iff.mpr hfirst, Rule.best?_eq_none_iff.mpr huncovered]
    | alwaysForbidden hnone hlongest =>
      simp only [RuleGroup.find?_eq_none_iff.mpr hnone, Rule.best?_eq_some_iff.mpr hlongest]
    | forbidden hnone huncovered hfirst hlongest =>
      simp only [RuleGroup.find?_eq_none_iff.mpr hnone, Rule.best?_eq_none_iff.mpr huncovered,
        RuleGroup.find?_eq_some_iff.mpr hfirst, Rule.best?_eq_some_iff.mpr hlongest,
        Option.map_some]

theorem violation?_eq_some_iff {p : Policy} {c : ClassImports} {package : String} {v : Violation} :
    p.violation? c package = some v ↔
      (v.className = c.className ∧ v.package = package) ∧ package ≠ c.package ∧ ¬ p.Open package ∧
        p.Objects c.package package v.comment := by
  unfold violation?
  -- A package is free if it is the class's own or open to all classes.
  by_cases hfree : (package == c.package || p.isAlwaysAllowed package) = true
  · rw [if_pos hfree]
    rw [Bool.or_eq_true, beq_iff_eq, isAlwaysAllowed_iff] at hfree
    refine ⟨(fun h => nomatch h), fun ⟨_, hhome, hopen, _⟩ => ?_⟩
    exact absurd hfree (not_or.mpr ⟨hhome, hopen⟩)
  · rw [if_neg hfree, Option.map_eq_some_iff]
    rw [Bool.or_eq_true, beq_iff_eq, isAlwaysAllowed_iff, not_or] at hfree
    simp only [objection?_eq_some_iff]
    constructor
    · rintro ⟨comment, hobjects, rfl⟩
      exact ⟨⟨rfl, rfl⟩, hfree.1, hfree.2, hobjects⟩
    · rintro ⟨⟨hclass, hpackage⟩, -, -, hobjects⟩
      exact ⟨v.comment, hobjects, by rw [← hclass, ← hpackage]⟩

/-! ### Classes -/

theorem classReport (p : Policy) (c : ClassImports) : ClassReport p c (p.classViolations c) := by
  unfold classViolations
  refine ⟨fun v hv => ?_, ?_, fun package comment => ?_⟩
  · obtain ⟨package, -, hv⟩ := List.mem_filterMap.mp hv
    exact (violation?_eq_some_iff.mp hv).1.1
  · -- Imports are kept in increasing order, by characters and therefore by bytes.
    refine List.Pairwise.filterMap _ (fun a b hlt v hv w hw => ?_) c.imports.increasing
    obtain ⟨⟨-, rfl⟩, -⟩ := violation?_eq_some_iff.mp hv
    obtain ⟨⟨-, rfl⟩, -⟩ := violation?_eq_some_iff.mp hw
    exact Text.utf8_lt_iff.mpr hlt
  · rw [List.mem_filterMap]
    constructor
    · rintro ⟨_, himport, hsome⟩
      obtain ⟨⟨-, rfl⟩, hviolation⟩ := violation?_eq_some_iff.mp hsome
      exact ⟨himport, hviolation⟩
    · rintro ⟨himport, hviolation⟩
      exact ⟨package, himport, violation?_eq_some_iff.mpr ⟨⟨rfl, rfl⟩, hviolation⟩⟩

/-- **Policy evaluation.** The violations come class by class, in the order of the classes, and for
    each class they are exactly the imports to which the policy objects, in increasing order. -/
theorem violations_exact (p : Policy) (classes : List ClassImports) :
    Reports p classes (p.violations classes) := by
  induction classes with
  | nil => exact .nil
  | cons c classes ih => exact .cons (p.classReport c) ih

end Policy

end ClassAudit
