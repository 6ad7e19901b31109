import Mathlib.Data.List.Nodup
import ClassAudit.Proofs.Policy.Violation

/-! # The order of a policy's entries

    Entries of a policy can be written in any order, as long as no two groups of a kind have the
    same name and no two rules that give comments have the same package. The rule with the longest
    package is then the only one of its length, since all packages that cover a package are
    beginnings of it.
-/

namespace ClassAudit

variable {r : Rule} {package : ByteString} {rules rules' : List Rule}
  {groups groups' : List RuleGroup} {p q : Policy}

namespace Rule

theorem Covers.isPrefix (h : r.Covers package) : r.package.bytes <+: package.bytes := by
  rcases h with rfl | ⟨-, rest, rfl⟩
  · exact List.prefix_rfl
  · exact ⟨(ByteString.ofString ".").bytes ++ rest.bytes, (List.append_assoc ..).symm⟩

theorem Covers.package_eq {x : Rule} (hr : r.Covers package) (hx : x.Covers package)
    (hlength : r.package.length = x.package.length) : r.package = x.package := by
  have hbytes : r.package.bytes = x.package.bytes :=
    (List.prefix_of_prefix_length_le hr.isPrefix hx.isPrefix (Nat.le_of_eq hlength)).eq_of_length
      hlength
  exact congrArg ByteString.mk hbytes

/-- Among rules for different packages, the longest one is known by its length alone. -/
theorem longest_iff (hnodup : (rules.map Rule.package).Nodup) :
    Longest rules package r ↔ r ∈ rules ∧ r.Covers package ∧
      ∀ x ∈ rules, x.Covers package → x.package.length ≤ r.package.length := by
  constructor
  · intro h
    exact ⟨h.mem, h.1, fun x hx => h.le hx⟩
  · rintro ⟨hmem, hcovers, hle⟩
    cases hbest : best? rules package with
    | none => exact absurd hcovers (best?_eq_none_iff.mp hbest r hmem)
    | some b =>
      -- The rule that is chosen is as long, so that it has the same package and is the same rule.
      have hb := best?_eq_some_iff.mp hbest
      have hlength : r.package.length = b.package.length :=
        Nat.le_antisymm (hb.le hmem hcovers) (hle b hb.mem hb.1)
      have hpackage : r.package = b.package := hcovers.package_eq hb.1 hlength
      obtain rfl := List.inj_on_of_nodup_map hnodup hmem hb.mem hpackage
      exact hb

theorem uncovered_perm (h : rules.Perm rules') :
    Uncovered rules package ↔ Uncovered rules' package := by
  unfold Uncovered
  simp only [h.mem_iff]

theorem best?_perm (h : rules.Perm rules') (hnodup : (rules.map Rule.package).Nodup)
    (package : ByteString) : best? rules package = best? rules' package := by
  have hnodup' : (rules'.map Rule.package).Nodup := (h.map _).nodup_iff.mp hnodup
  apply Option.ext
  intro r
  rw [best?_eq_some_iff, best?_eq_some_iff, longest_iff hnodup, longest_iff hnodup']
  simp only [h.mem_iff]

theorem best?_eq_none_perm (h : rules.Perm rules') (package : ByteString) :
    best? rules package = none ↔ best? rules' package = none := by
  rw [best?_eq_none_iff, best?_eq_none_iff, uncovered_perm h]

end Rule

namespace RuleGroup

/-- Two groups differ in the order of their rules only. -/
structure Rearranged (g g' : RuleGroup) : Prop where
  name : g.name = g'.name
  comment : g.comment = g'.comment
  dependencies : g.dependencies.Perm g'.dependencies

/-- Two lists of groups differ in the order of the groups, and in the order of the rules of each. -/
def AllRearranged (groups groups' : List RuleGroup) : Prop :=
  ∃ middle, groups.Perm middle ∧ List.Forall₂ Rearranged middle groups'

/-- Among groups with different names, the first one with a name is the only one. -/
theorem find?_eq_some_iff_mem (hnodup : (groups.map RuleGroup.name).Nodup) {g : RuleGroup} :
    find? groups package = some g ↔ g ∈ groups ∧ g.name = package := by
  constructor
  · intro h
    obtain ⟨hname, before, after, rfl, -⟩ := find?_eq_some_iff.mp h
    exact ⟨by simp, hname⟩
  · rintro ⟨hmem, hname⟩
    cases hfind : find? groups package with
    | none => exact absurd hname (find?_eq_none_iff.mp hfind g hmem)
    | some g' =>
      obtain ⟨hname', before, after, rfl, -⟩ := find?_eq_some_iff.mp hfind
      obtain rfl := List.inj_on_of_nodup_map hnodup hmem (by simp) (hname.trans hname'.symm)
      rfl

theorem find?_perm (h : groups.Perm groups') (hnodup : (groups.map RuleGroup.name).Nodup)
    (package : ByteString) : find? groups package = find? groups' package := by
  have hnodup' : (groups'.map RuleGroup.name).Nodup := (h.map _).nodup_iff.mp hnodup
  apply Option.ext
  intro g
  rw [find?_eq_some_iff_mem hnodup, find?_eq_some_iff_mem hnodup', h.mem_iff]

/-- Where groups at the same place have the same name, the groups that are found are those at one
    place. -/
theorem find?_of_forall₂ {R : RuleGroup → RuleGroup → Prop}
    (hname : ∀ g g', R g g' → g.name = g'.name) (h : List.Forall₂ R groups groups')
    (package : ByteString) : Option.Rel R (find? groups package) (find? groups' package) := by
  induction h with
  | nil => exact .none
  | @cons g g' _ _ hfirst _ ih =>
    unfold find? at ih ⊢
    rw [List.find?_cons, List.find?_cons, hname g g' hfirst]
    cases g'.name == package with
    | true => exact .some hfirst
    | false => exact ih

theorem AllRearranged.find? (h : AllRearranged groups groups')
    (hnodup : (groups.map RuleGroup.name).Nodup) (package : ByteString) :
    Option.Rel Rearranged (RuleGroup.find? groups package) (RuleGroup.find? groups' package) := by
  obtain ⟨middle, hperm, hall⟩ := h
  rw [find?_perm hperm hnodup]
  exact find?_of_forall₂ (fun _ _ hg => hg.name) hall package

end RuleGroup

namespace Policy

/-- Two policies differ in the order of their entries only. -/
structure Rearranged (p q : Policy) : Prop where
  alwaysAllowed : p.alwaysAllowed.Perm q.alwaysAllowed
  alwaysForbidden : p.alwaysForbidden.Perm q.alwaysForbidden
  allowed : RuleGroup.AllRearranged p.allowed q.allowed
  forbidden : RuleGroup.AllRearranged p.forbidden q.forbidden

/-- No two groups of a kind have the same name, and no two rules that can give a comment side by
    side have the same package. -/
structure Distinct (p : Policy) : Prop where
  allowed : (p.allowed.map RuleGroup.name).Nodup
  forbidden : (p.forbidden.map RuleGroup.name).Nodup
  alwaysForbidden : (p.alwaysForbidden.map Rule.package).Nodup
  dependencies : ∀ g ∈ p.forbidden, (g.dependencies.map Rule.package).Nodup

theorem Rearranged.isAlwaysAllowed_eq (h : Rearranged p q) (package : String) :
    p.isAlwaysAllowed package = q.isAlwaysAllowed package := by
  rw [Bool.eq_iff_iff, isAlwaysAllowed_iff, isAlwaysAllowed_iff]
  unfold Open
  simp only [h.alwaysAllowed.mem_iff]

theorem Rearranged.objection?_eq (h : Rearranged p q) (hp : p.Distinct) (home package : String) :
    p.objection? home package = q.objection? home package := by
  have hallowed := h.allowed.find? hp.allowed home
  have hforbidden := h.forbidden.find? hp.forbidden home
  unfold objection?
  rw [Rule.best?_perm h.alwaysForbidden hp.alwaysForbidden]
  generalize RuleGroup.find? p.allowed home = own at hallowed
  generalize RuleGroup.find? q.allowed home = own' at hallowed
  cases hallowed with
  | @some g g' hg =>
    -- An allowing group decides: only whether one of its rules covers the package matters.
    have hnone := Rule.best?_eq_none_perm hg.dependencies package
    dsimp only
    cases hbest : Rule.best? g.dependencies package with
    | none => simp only [hnone.mp hbest, hg.comment]
    | some r =>
      cases hbest' : Rule.best? g'.dependencies package with
      | none => simp [hnone.mpr hbest'] at hbest
      | some r' => rfl
  | none =>
    dsimp only
    cases Rule.best? q.alwaysForbidden package with
    | some r => rfl
    | none =>
      dsimp only
      cases hgroup : RuleGroup.find? p.forbidden home with
      | none =>
        rw [hgroup] at hforbidden
        generalize RuleGroup.find? q.forbidden home = theirs at hforbidden
        cases hforbidden
        rfl
      | some g =>
        -- A forbidding group gives the comment of the rule that is found.
        have hmem := ((RuleGroup.find?_eq_some_iff_mem hp.forbidden).mp hgroup).1
        rw [hgroup] at hforbidden
        generalize RuleGroup.find? q.forbidden home = theirs at hforbidden
        cases hforbidden with
        | some hg =>
          dsimp only
          rw [Rule.best?_perm hg.dependencies (hp.dependencies g hmem), hg.comment]

theorem Rearranged.violation?_eq (h : Rearranged p q) (hp : p.Distinct) (c : ClassImports) :
    p.violation? c = q.violation? c := by
  funext package
  unfold violation?
  rw [h.isAlwaysAllowed_eq, h.objection?_eq hp]

/-- **The order of entries.** Policies that differ only in the order of their entries report the
    same violations, in the same order and with the same comments. -/
theorem violations_rearranged {p q : Policy} (h : Rearranged p q) (hp : p.Distinct)
    (classes : List ClassImports) : p.violations classes = q.violations classes := by
  unfold violations classViolations
  simp only [h.violation?_eq hp]

/-! ### A policy with overlapping rules -/

/-- A policy whose rules are nested, and the same policy with its entries in another order. -/
def samplePolicy : Policy where
  alwaysAllowed := [.allow "org.log", .allow "org.log.api"]
  alwaysForbidden := [.deny "sun" "internal", .deny "sun.misc" "unsafe"]
  allowed := [⟨"app.core", "core only", [.allow "app.util", .allow "app.model"]⟩,
    ⟨"app.util", "", []⟩]
  forbidden := [⟨"app.web", "no database", [.deny "java.sql" "", .deny "java" "use services"]⟩,
    ⟨"app.cli", "", []⟩]

def samplePolicyReordered : Policy where
  alwaysAllowed := [.allow "org.log.api", .allow "org.log"]
  alwaysForbidden := [.deny "sun.misc" "unsafe", .deny "sun" "internal"]
  allowed := [⟨"app.util", "", []⟩,
    ⟨"app.core", "core only", [.allow "app.model", .allow "app.util"]⟩]
  forbidden := [⟨"app.cli", "", []⟩,
    ⟨"app.web", "no database", [.deny "java" "use services", .deny "java.sql" ""]⟩]

theorem rearranged_sample : Rearranged samplePolicy samplePolicyReordered where
  alwaysAllowed := .swap ..
  alwaysForbidden := .swap ..
  allowed := ⟨_, .swap .., .cons ⟨rfl, rfl, .refl _⟩ (.cons ⟨rfl, rfl, .swap ..⟩ .nil)⟩
  forbidden := ⟨_, .swap .., .cons ⟨rfl, rfl, .refl _⟩ (.cons ⟨rfl, rfl, .swap ..⟩ .nil)⟩

theorem distinct_sample : samplePolicy.Distinct :=
  ⟨by decide +kernel, by decide +kernel, by decide +kernel, by decide +kernel⟩

theorem violations_rearranged_sample :
    Rearranged samplePolicy samplePolicyReordered ∧ samplePolicy.Distinct ∧
      ∀ classes, samplePolicy.violations classes = samplePolicyReordered.violations classes :=
  ⟨rearranged_sample, distinct_sample, violations_rearranged rearranged_sample distinct_sample⟩

end Policy

end ClassAudit
