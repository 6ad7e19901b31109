import Mathlib.Data.List.Flatten
import ClassAudit.Proofs.Policy.Order

/-! # More rules

    Rules that allow can only take violations away, and rules that forbid can only add some. A
    further rule may be longer than those that have decided before, and so another comment may be
    given; whether there is a violation does not depend on which of the covering rules is chosen.
-/

namespace ClassAudit

/-- What a violation is about: a class, and a package that it imports. -/
def Violation.subject (v : Violation) : String × String :=
  (v.className, v.package)

namespace Rule

theorem Uncovered.of_subset {rules more : List Rule} {package : ByteString}
    (h : Uncovered more package) (hsub : rules ⊆ more) : Uncovered rules package :=
  fun r hr => h r (hsub hr)

/-- A rule is chosen as soon as one covers the package. -/
theorem exists_longest {rules : List Rule} {package : ByteString} {r : Rule} (hr : r ∈ rules)
    (hcovers : r.Covers package) : ∃ b, Longest rules package b := by
  cases hbest : best? rules package with
  | none => exact absurd hcovers (best?_eq_none_iff.mp hbest r hr)
  | some b => exact ⟨b, best?_eq_some_iff.mp hbest⟩

end Rule

namespace RuleGroup

/-- A group has further rules, and is otherwise the same. -/
structure Extended (g g' : RuleGroup) : Prop where
  name : g.name = g'.name
  comment : g.comment = g'.comment
  dependencies : g.dependencies ⊆ g'.dependencies

abbrev AllExtended : List RuleGroup → List RuleGroup → Prop :=
  List.Forall₂ Extended

variable {groups groups' : List RuleGroup} {package : ByteString}

/-- Where groups at the same place have the same name, the first ones for a package are at one
    place. -/
theorem First.of_forall₂ {R : RuleGroup → RuleGroup → Prop}
    (hname : ∀ g g', R g g' → g.name = g'.name) (h : List.Forall₂ R groups groups')
    {g : RuleGroup} (hfirst : First groups package g) : ∃ g', First groups' package g' ∧ R g g' := by
  have hfound := find?_of_forall₂ hname h package
  rw [find?_eq_some_iff.mpr hfirst] at hfound
  generalize hfound' : find? groups' package = found' at hfound
  cases hfound with
  | @some _ g' hg => exact ⟨g', find?_eq_some_iff.mp hfound', hg⟩

theorem AllExtended.forall_ne (h : AllExtended groups groups')
    (hnone : ∀ g ∈ groups', g.name ≠ package) : ∀ g ∈ groups, g.name ≠ package := by
  induction h with
  | nil => exact fun g hg => nomatch hg
  | cons hg _ ih =>
    rw [List.forall_mem_cons] at hnone ⊢
    exact ⟨hg.name ▸ hnone.1, ih hnone.2⟩

end RuleGroup

namespace Policy

/-- A policy has further rules that allow: for all classes, or in the groups that allow. -/
structure Loosened (p q : Policy) : Prop where
  alwaysAllowed : p.alwaysAllowed ⊆ q.alwaysAllowed
  allowed : RuleGroup.AllExtended p.allowed q.allowed
  alwaysForbidden : q.alwaysForbidden = p.alwaysForbidden
  forbidden : q.forbidden = p.forbidden

/-- A policy has further rules that forbid: for all classes, or in the groups that forbid. -/
structure Tightened (p q : Policy) : Prop where
  alwaysForbidden : p.alwaysForbidden ⊆ q.alwaysForbidden
  forbidden : RuleGroup.AllExtended p.forbidden q.forbidden
  alwaysAllowed : q.alwaysAllowed = p.alwaysAllowed
  allowed : q.allowed = p.allowed

variable {p q : Policy}

/-! ### One import -/

theorem Loosened.isOpen (h : Loosened p q) {package : ByteString} (hopen : p.Open package) :
    q.Open package := by
  rcases hopen with hlanguage | ⟨r, hr, hcovers⟩
  · exact .inl hlanguage
  · exact .inr ⟨r, h.alwaysAllowed hr, hcovers⟩

/-- What the looser policy speaks against, the other one does too, and with the same comment. -/
theorem Loosened.objects (h : Loosened p q) {home package : ByteString} {comment : String}
    (hobjects : q.Objects home package comment) : p.Objects home package comment := by
  cases hobjects with
  | @notAllowed g' hfirst huncovered =>
    obtain ⟨g, hfirst', hg⟩ : ∃ g, RuleGroup.First p.allowed home g ∧ RuleGroup.Extended g g' :=
      hfirst.of_forall₂ (fun _ _ hg => hg.name.symm) h.allowed.flip
    rw [← hg.comment]
    exact .notAllowed hfirst' (huncovered.of_subset hg.dependencies)
  | alwaysForbidden hnone hlongest =>
    rw [h.alwaysForbidden] at hlongest
    exact .alwaysForbidden (h.allowed.forall_ne hnone) hlongest
  | forbidden hnone huncovered hfirst hlongest =>
    rw [h.alwaysForbidden] at huncovered
    rw [h.forbidden] at hfirst
    exact .forbidden (h.allowed.forall_ne hnone) huncovered hfirst hlongest

/-- What a policy speaks against, the stricter one does too. The comment may be that of a rule that
    is longer or comes earlier. -/
theorem Tightened.objects (h : Tightened p q) {home package : ByteString} {comment : String}
    (hobjects : p.Objects home package comment) : ∃ other, q.Objects home package other := by
  cases hobjects with
  | notAllowed hfirst huncovered =>
    rw [← h.allowed] at hfirst
    exact ⟨_, .notAllowed hfirst huncovered⟩
  | @alwaysForbidden r hnone hlongest =>
    rw [← h.allowed] at hnone
    obtain ⟨b, hb⟩ := Rule.exists_longest (h.alwaysForbidden hlongest.mem) hlongest.1
    exact ⟨_, .alwaysForbidden hnone hb⟩
  | @forbidden g r hnone _ hfirst hlongest =>
    rw [← h.allowed] at hnone
    obtain ⟨g', hfirst', hg⟩ := hfirst.of_forall₂ (fun _ _ hg => hg.name) h.forbidden
    -- A further rule for all classes may cover the package now, and is then asked first.
    by_cases huncovered : Rule.Uncovered q.alwaysForbidden package
    · obtain ⟨b, hb⟩ := Rule.exists_longest (hg.dependencies hlongest.mem) hlongest.1
      exact ⟨_, .forbidden hnone huncovered hfirst' hb⟩
    · unfold Rule.Uncovered at huncovered
      push Not at huncovered
      obtain ⟨x, hx, hcovers⟩ := huncovered
      obtain ⟨b, hb⟩ := Rule.exists_longest hx hcovers
      exact ⟨_, .alwaysForbidden hnone hb⟩

theorem Loosened.violation? (h : Loosened p q) {c : ClassImports} {package : String}
    {v : Violation} (hv : q.violation? c package = some v) : p.violation? c package = some v := by
  obtain ⟨hsubject, hhome, hopen, hobjects⟩ := violation?_eq_some_iff.mp hv
  exact violation?_eq_some_iff.mpr
    ⟨hsubject, hhome, fun hp => hopen (h.isOpen hp), h.objects hobjects⟩

theorem Tightened.violation? (h : Tightened p q) {c : ClassImports} {package : String}
    {v : Violation} (hv : p.violation? c package = some v) :
    ∃ w, q.violation? c package = some w ∧ w.subject = v.subject := by
  obtain ⟨⟨hclass, hpackage⟩, hhome, hopen, hobjects⟩ := violation?_eq_some_iff.mp hv
  obtain ⟨other, hother⟩ := h.objects hobjects
  refine ⟨⟨v.className, v.package, other⟩, violation?_eq_some_iff.mpr
    ⟨⟨hclass, hpackage⟩, hhome, ?_, hother⟩, rfl⟩
  unfold Open at hopen ⊢
  rwa [h.alwaysAllowed]

/-! ### Classes -/

/-- Where one test lets through what another one does, up to what is looked at, fewer are let
    through. -/
theorem sublist_map_filterMap {α β γ : Type} {f g : α → Option β} {key : β → γ}
    (h : ∀ a b, f a = some b → ∃ c, g a = some c ∧ key c = key b) (xs : List α) :
    ((xs.filterMap f).map key).Sublist ((xs.filterMap g).map key) := by
  induction xs with
  | nil => exact .refl _
  | cons a xs ih =>
    cases hf : f a with
    | none =>
      rw [List.filterMap_cons_none hf]
      cases hg : g a with
      | none => rwa [List.filterMap_cons_none hg]
      | some c =>
        rw [List.filterMap_cons_some hg]
        exact ih.cons _
    | some b =>
      obtain ⟨c, hg, hkey⟩ := h a b hf
      rw [List.filterMap_cons_some hf, List.filterMap_cons_some hg, List.map_cons, List.map_cons,
        hkey]
      exact ih.cons_cons _

theorem sublist_map_violations {γ : Type} {key : Violation → γ}
    (h : ∀ c package v, p.violation? c package = some v →
      ∃ w, q.violation? c package = some w ∧ key w = key v) (classes : List ClassImports) :
    ((p.violations classes).map key).Sublist ((q.violations classes).map key) := by
  unfold violations
  rw [List.map_flatMap, List.map_flatMap]
  exact List.Sublist.flatMap_right classes fun c _ => sublist_map_filterMap (h c) _

/-- **More rules.** Further rules that allow add no violation, and leave those that stay as they
    are. Further rules that forbid take away none, though one may come to have another comment. -/
theorem violations_monotone (p q : Policy) (classes : List ClassImports) :
    (p.Loosened q → (q.violations classes).Sublist (p.violations classes)) ∧
    (p.Tightened q → ((p.violations classes).map Violation.subject).Sublist
      ((q.violations classes).map Violation.subject)) := by
  constructor
  · intro h
    have hsub := @sublist_map_violations q p _ id
      (fun c package v hv => ⟨v, h.violation? hv, rfl⟩) classes
    rwa [List.map_id, List.map_id] at hsub
  · intro h
    exact sublist_map_violations (fun c package v hv => h.violation? hv) classes

/-! ### A policy with more rules -/

/-- The sample policy with a rule more that allows, for all classes and in a group. -/
def sampleLoosened : Policy :=
  { samplePolicy with
    alwaysAllowed := .allow "org" :: samplePolicy.alwaysAllowed
    allowed := [⟨"app.core", "core only", [.allow "app.util", .allow "app.io", .allow "app.model"]⟩,
      ⟨"app.util", "", []⟩] }

/-- The sample policy with a rule more that forbids, for all classes and in a group. The one in the
    group is longer than the others there. -/
def sampleTightened : Policy :=
  { samplePolicy with
    alwaysForbidden := .deny "org.old" "gone" :: samplePolicy.alwaysForbidden
    forbidden := [⟨"app.web", "no database",
      [.deny "java.sql" "", .deny "java" "use services", .deny "java.sql.rowset" "no rows"]⟩,
      ⟨"app.cli", "", []⟩] }

/-- Two classes, one for each kind of group. -/
def sampleImports : List ClassImports :=
  [⟨"app.core.A", "app.core", ⟨["app.io", "sun.misc"], by decide⟩⟩,
    ⟨"app.web.B", "app.web", ⟨["java.sql.rowset", "org.old"], by decide⟩⟩]

theorem loosened_sample : samplePolicy.Loosened sampleLoosened where
  alwaysAllowed := List.subset_cons_self _ _
  allowed := .cons ⟨rfl, rfl, by simp⟩ (.cons ⟨rfl, rfl, List.Subset.refl _⟩ .nil)
  alwaysForbidden := rfl
  forbidden := rfl

theorem tightened_sample : samplePolicy.Tightened sampleTightened where
  alwaysForbidden := List.subset_cons_self _ _
  forbidden := .cons ⟨rfl, rfl, by simp⟩ (.cons ⟨rfl, rfl, List.Subset.refl _⟩ .nil)
  alwaysAllowed := rfl
  allowed := rfl

/-- One violation goes away with the rules that allow. With those that forbid another one comes, and
    one has a new comment. -/
theorem violations_monotone_sample :
    samplePolicy.Loosened sampleLoosened ∧ samplePolicy.Tightened sampleTightened ∧
    (sampleLoosened.violations sampleImports).Sublist (samplePolicy.violations sampleImports) ∧
    ((samplePolicy.violations sampleImports).map Violation.subject).Sublist
      ((sampleTightened.violations sampleImports).map Violation.subject) ∧
    (sampleLoosened.violations sampleImports).map Violation.text =
      ["app.core.A => sun.misc [core only]", "app.web.B => java.sql.rowset [no database]"] ∧
    (samplePolicy.violations sampleImports).map Violation.text =
      ["app.core.A => app.io [core only]", "app.core.A => sun.misc [core only]",
        "app.web.B => java.sql.rowset [no database]"] ∧
    (sampleTightened.violations sampleImports).map Violation.text =
      ["app.core.A => app.io [core only]", "app.core.A => sun.misc [core only]",
        "app.web.B => java.sql.rowset [no rows]", "app.web.B => org.old [gone]"] :=
  ⟨loosened_sample, tightened_sample,
    (violations_monotone samplePolicy sampleLoosened sampleImports).1 loosened_sample,
    (violations_monotone samplePolicy sampleTightened sampleImports).2 tightened_sample,
    by decide +kernel⟩

end Policy

end ClassAudit
