import Mathlib.Data.List.Sort
import ClassAudit.Policy.Basic

/-! # Packages with groups of both kinds

    A policy is refused if a package has both a group that allows and a group that forbids. The
    error lists all such packages. It depends only on which names the groups have: how often a name
    occurs, and in which order the groups stand, makes no difference.
-/

namespace ClassAudit

namespace Policy

/-- A package has a group of each kind. -/
def InBoth (p : Policy) (name : ByteString) : Prop :=
  (∃ g ∈ p.allowed, g.name = name) ∧ ∃ g ∈ p.forbidden, g.name = name

/-- A list has exactly the packages with a group of each kind, in increasing order of their bytes. -/
structure ListsBoth (p : Policy) (names : List ByteString) : Prop where
  increasing : names.Pairwise fun a b => a.bytes < b.bytes
  mem_iff : ∀ name, name ∈ names ↔ p.InBoth name

theorem mem_conflicts_iff {p : Policy} {name : ByteString} :
    name ∈ p.conflicts.toList ↔ p.InBoth name := by
  unfold conflicts InBoth
  rw [SortedSet.mem_ofList, List.mem_filter, List.mem_map, List.any_eq_true]
  simp only [beq_iff_eq]
  exact and_comm

theorem listsBoth_conflicts (p : Policy) : p.ListsBoth p.conflicts.toList :=
  ⟨p.conflicts.increasing, fun _ => mem_conflicts_iff⟩

/-- There is one such list. -/
theorem ListsBoth.eq_conflicts {p : Policy} {names : List ByteString} (h : p.ListsBoth names) :
    names = p.conflicts.toList := by
  refine List.Pairwise.eq_of_mem_iff h.increasing p.conflicts.increasing fun name => ?_
  rw [h.mem_iff, mem_conflicts_iff]

theorem validate_eq (p : Policy) : p.validate =
    if p.conflicts.toList = [] then .ok () else .error ⟨p.conflicts.toList⟩ := by
  unfold validate
  split
  · next h => rw [if_pos h]
  · next h => rw [if_neg h]

/-- **Conflicts.** A policy is accepted if no package has groups of both kinds, and otherwise refused
    with the list of all packages that have. -/
theorem validate_exact (p : Policy) :
    (p.validate = .ok () ↔ ∀ name, ¬ p.InBoth name) ∧
    ∀ c : Conflict, p.validate = .error c ↔ (∃ name, p.InBoth name) ∧ p.ListsBoth c.packages := by
  have hnil : p.conflicts.toList = [] ↔ ∀ name, ¬ p.InBoth name := by
    simp only [List.eq_nil_iff_forall_not_mem, mem_conflicts_iff]
  have hexists : p.conflicts.toList ≠ [] ↔ ∃ name, p.InBoth name := by
    rw [ne_eq, hnil, not_forall_not]
  rw [validate_eq]
  constructor
  · rw [← hnil]
    split
    · next h => exact ⟨fun _ => h, fun _ => rfl⟩
    · next h => exact ⟨(fun heq => nomatch heq), fun heq => absurd heq h⟩
  · intro c
    rw [← hexists]
    split
    · next h => exact ⟨(fun heq => nomatch heq), fun hc => absurd h hc.1⟩
    · next h =>
      constructor
      · intro heq
        obtain rfl := Except.error.inj heq
        exact ⟨h, p.listsBoth_conflicts⟩
      · intro hc
        rw [← hc.2.eq_conflicts]

end Policy

end ClassAudit
