import ClassAudit.Policy.Basic

/-! # Rules that cover a package

    What a rule covers, said without bytes, and which rule is chosen among those that cover a
    package: `Rule.Longest` describes it by its place in the list, and `Rule.best?` finds it.
-/

namespace ClassAudit

variable {r : Rule} {package : ByteString} {rules : List Rule}

theorem ByteString.startsWith_iff {s start : ByteString} :
    s.startsWith start = true ↔ ∃ rest, s = start ++ rest := by
  unfold startsWith
  rw [List.isPrefixOf_iff_prefix]
  constructor
  · rintro ⟨rest, hrest⟩
    exact ⟨⟨rest⟩, congrArg ByteString.mk hrest.symm⟩
  · rintro ⟨rest, rfl⟩
    exact ⟨rest.bytes, rfl⟩

namespace Rule

/-- A rule covers its own package and, if it says so, the packages below it. -/
def Covers (r : Rule) (package : ByteString) : Prop :=
  package = r.package ∨ r.includeSubPackages = true ∧ ∃ rest, package = r.package ++ "." ++ rest

theorem covers_iff : r.covers package = true ↔ r.Covers package := by
  unfold covers Covers
  rw [Bool.or_eq_true, Bool.and_eq_true, beq_iff_eq, ByteString.startsWith_iff]
  rfl

/-! ### The longest covering rule -/

def Uncovered (rules : List Rule) (package : ByteString) : Prop :=
  ∀ r ∈ rules, ¬ r.Covers package

/-- A rule covers the package and has the longest package name of those that do, and it is the first
    with a name of this length. -/
def Longest (rules : List Rule) (package : ByteString) (r : Rule) : Prop :=
  r.Covers package ∧ ∃ before after, rules = before ++ r :: after ∧
    (∀ x ∈ before, x.Covers package → x.package.length < r.package.length) ∧
    ∀ x ∈ after, x.Covers package → x.package.length ≤ r.package.length

/-- What has been chosen after some rules. -/
def Chosen (rules : List Rule) (package : ByteString) : Option Rule → Prop
  | none => Uncovered rules package
  | some r => Longest rules package r

theorem Longest.mem (h : Longest rules package r) : r ∈ rules := by
  obtain ⟨-, before, after, rfl, -, -⟩ := h
  simp

theorem Longest.le {x : Rule} (h : Longest rules package r) (hx : x ∈ rules)
    (hcovers : x.Covers package) : x.package.length ≤ r.package.length := by
  obtain ⟨-, before, after, rfl, hbefore, hafter⟩ := h
  rcases List.mem_append.mp hx with hmem | hmem
  · exact Nat.le_of_lt (hbefore x hmem hcovers)
  · rcases List.mem_cons.mp hmem with rfl | hmem
    · exact Nat.le_refl _
    · exact hafter x hmem hcovers

/-- There is only one such rule: of two places in the list, the later one has no longer name. -/
theorem Longest.unique {x : Rule} (hr : Longest rules package r) (hx : Longest rules package x) :
    r = x := by
  have hle := hr.le hx.mem hx.1
  have hge := hx.le hr.mem hr.1
  obtain ⟨hrcovers, before, after, hrules, hbefore, -⟩ := hr
  obtain ⟨hxcovers, before', after', hrules', hbefore', -⟩ := hx
  rw [hrules, List.append_eq_append_iff] at hrules'
  -- Either both places are the same, or one rule stands in front of the other.
  rcases hrules' with ⟨middle, rfl, hrest⟩ | ⟨middle, rfl, hrest⟩
  · cases middle with
    | nil => exact (List.cons.inj hrest).1
    | cons y middle =>
      obtain ⟨rfl, -⟩ := List.cons.inj hrest
      have hlt := hbefore' r (by simp) hrcovers
      omega
  · cases middle with
    | nil => exact (List.cons.inj hrest).1.symm
    | cons y middle =>
      obtain ⟨rfl, -⟩ := List.cons.inj hrest
      have hlt := hbefore x (by simp) hxcovers
      omega

theorem Longest.append {b : Rule} (h : Longest rules package b)
    (hle : r.Covers package → r.package.length ≤ b.package.length) :
    Longest (rules ++ [r]) package b := by
  obtain ⟨hcovers, before, after, rfl, hbefore, hafter⟩ := h
  refine ⟨hcovers, before, after ++ [r], by simp, hbefore, ?_⟩
  rw [List.forall_mem_append, List.forall_mem_singleton]
  exact ⟨hafter, hle⟩

theorem chosen_longer {best : Option Rule} (h : Chosen rules package best) (r : Rule) :
    Chosen (rules ++ [r]) package (longer package best r) := by
  unfold longer
  by_cases hcovers : r.Covers package
  · -- The new rule is behind all others, so that it must have a longer name to be chosen.
    rw [if_pos (covers_iff.mpr hcovers)]
    cases best with
    | none => exact ⟨hcovers, rules, [], rfl, fun x hx hx' => absurd hx' (h x hx), by simp⟩
    | some b =>
      by_cases hlt : b.package.length < r.package.length
      · simp only [if_pos hlt]
        refine ⟨hcovers, rules, [], rfl, fun x hx hx' => ?_, by simp⟩
        exact Nat.lt_of_le_of_lt (h.le hx hx') hlt
      · simp only [if_neg hlt]
        exact h.append fun _ => Nat.le_of_not_lt hlt
  · rw [if_neg fun h => hcovers (covers_iff.mp h)]
    cases best with
    | none =>
      show ∀ x ∈ rules ++ [r], ¬ x.Covers package
      rw [List.forall_mem_append, List.forall_mem_singleton]
      exact ⟨h, hcovers⟩
    | some b => exact h.append fun hr => absurd hr hcovers

theorem chosen_foldl {best : Option Rule} (h : Chosen rules package best) (more : List Rule) :
    Chosen (rules ++ more) package (more.foldl (longer package) best) := by
  induction more generalizing rules best with
  | nil =>
    rw [List.append_nil]
    exact h
  | cons r more ih =>
    -- The first of the further rules is now one of those that have been seen.
    rw [List.append_cons]
    exact ih (chosen_longer h r)

theorem chosen_best? (rules : List Rule) (package : ByteString) :
    Chosen rules package (best? rules package) := by
  have hstart : Chosen [] package none := fun _ h => nomatch h
  exact chosen_foldl hstart rules

theorem best?_eq_some_iff : best? rules package = some r ↔ Longest rules package r := by
  have h := chosen_best? rules package
  cases hbest : best? rules package with
  | none =>
    rw [hbest] at h
    exact ⟨(fun heq => nomatch heq), fun hr => absurd hr.1 (h r hr.mem)⟩
  | some b =>
    rw [hbest] at h
    rw [Option.some.injEq]
    exact ⟨fun heq => heq ▸ h, fun hr => h.unique hr⟩

theorem best?_eq_none_iff : best? rules package = none ↔ Uncovered rules package := by
  have h := chosen_best? rules package
  cases hbest : best? rules package with
  | none =>
    rw [hbest] at h
    exact ⟨fun _ => h, fun _ => rfl⟩
  | some b =>
    rw [hbest] at h
    exact ⟨(fun heq => nomatch heq), fun hnone => absurd h.1 (hnone b h.mem)⟩

end Rule

end ClassAudit
