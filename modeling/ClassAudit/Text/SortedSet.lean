/-! # Sorted sets

    A finite set is kept as a list in increasing order without repetition, so that listing it in
    order is reading it off. Texts are compared by code point, byte strings by bytes; for texts the
    two orders are the same.
-/

namespace ClassAudit

/-- A strict order in which any two different things can be compared. -/
class StrictOrder (α : Type) [LT α] : Prop where
  irrefl (a : α) : ¬ a < a
  trans {a b c : α} : a < b → b < c → a < c
  connected {a b : α} : ¬ a < b → ¬ b < a → a = b

instance {α : Type} [LT α] [StrictOrder α] : Std.Asymm fun a b : α => a < b :=
  ⟨fun _ _ h h' => StrictOrder.irrefl _ (StrictOrder.trans h h')⟩

instance : StrictOrder String where
  irrefl := String.lt_irrefl
  trans := String.lt_trans
  connected h h' := String.le_antisymm h' h

structure SortedSet (α : Type) [LT α] where
  toList : List α
  increasing : toList.Pairwise (· < ·)

abbrev NameSet := SortedSet String

namespace SortedSet

variable {α : Type}

/-! ### Repetitions -/

section

variable [DecidableEq α]

/-- A list in which no member is followed by an equal one. -/
def dropRepeated : List α → List α
  | a :: b :: rest => if a = b then dropRepeated (b :: rest) else a :: dropRepeated (b :: rest)
  | rest => rest

theorem mem_dropRepeated {x : α} (xs : List α) : x ∈ dropRepeated xs ↔ x ∈ xs := by
  induction xs using dropRepeated.induct with
  | case1 a rest ih =>
    rw [dropRepeated, if_pos rfl, ih]
    simp
  | case2 a b rest hne ih =>
    rw [dropRepeated, if_neg hne, List.mem_cons, ih]
    exact List.mem_cons.symm
  | case3 rest hshort =>
    rw [dropRepeated]
    exact fun a b rest h => hshort a b rest h

end

/-! ### Sorting -/

variable [LT α] [DecidableLT α]

/-- Whether `b` may follow `a` in a list that is sorted. -/
def mayFollow (a b : α) : Bool :=
  !decide (b < a)

theorem mayFollow_iff [StrictOrder α] {a b : α} : mayFollow a b = true ↔ a < b ∨ a = b := by
  unfold mayFollow
  rw [Bool.not_eq_true', decide_eq_false_iff_not]
  constructor
  · intro h
    by_cases hlt : a < b
    · exact .inl hlt
    · exact .inr (StrictOrder.connected hlt h)
  · rintro (hlt | rfl) h
    · exact StrictOrder.irrefl a (StrictOrder.trans hlt h)
    · exact StrictOrder.irrefl a h

theorem pairwise_mergeSort [StrictOrder α] (xs : List α) :
    (xs.mergeSort mayFollow).Pairwise fun a b => mayFollow a b = true := by
  refine List.pairwise_mergeSort (fun a b c hab hbc => ?_) (fun a b => ?_) xs
  · rcases mayFollow_iff.mp hab with hlt | rfl
    · rcases mayFollow_iff.mp hbc with hlt' | rfl
      · exact mayFollow_iff.mpr (.inl (StrictOrder.trans hlt hlt'))
      · exact mayFollow_iff.mpr (.inl hlt)
    · exact hbc
  · rw [Bool.or_eq_true, mayFollow_iff, mayFollow_iff]
    by_cases hab : a < b
    · exact .inl (.inl hab)
    · by_cases hba : b < a
      · exact .inr (.inl hba)
      · exact .inl (.inr (StrictOrder.connected hab hba))

variable [DecidableEq α]

/-- A sorted list without repetitions is increasing. -/
theorem pairwise_dropRepeated [StrictOrder α] {xs : List α}
    (h : xs.Pairwise fun a b => mayFollow a b = true) :
    (dropRepeated xs).Pairwise (· < ·) := by
  induction xs using dropRepeated.induct with
  | case1 a rest ih =>
    rw [dropRepeated, if_pos rfl]
    exact ih (List.pairwise_cons.mp h).2
  | case2 a b rest hne ih =>
    obtain ⟨hfirst, hrest⟩ := List.pairwise_cons.mp h
    rw [dropRepeated, if_neg hne, List.pairwise_cons]
    refine ⟨fun x hx => ?_, ih hrest⟩
    have hab : a < b := (mayFollow_iff.mp (hfirst b List.mem_cons_self)).resolve_right hne
    rcases List.mem_cons.mp ((mem_dropRepeated _).mp hx) with rfl | hmem
    · exact hab
    · rcases mayFollow_iff.mp ((List.pairwise_cons.mp hrest).1 x hmem) with hlt | rfl
      · exact StrictOrder.trans hab hlt
      · exact hab
  | case3 rest hshort =>
    match rest, hshort with
    | [], _ => exact .nil
    | [a], _ => exact List.pairwise_singleton _ a
    | a :: b :: rest, hshort => exact (hshort a b rest rfl).elim

/-! ### Sets -/

def empty : SortedSet α :=
  ⟨[], .nil⟩

def ofList [StrictOrder α] (members : List α) : SortedSet α :=
  ⟨dropRepeated (members.mergeSort mayFollow), pairwise_dropRepeated (pairwise_mergeSort members)⟩

theorem mem_ofList [StrictOrder α] {x : α} (members : List α) :
    x ∈ (ofList members).toList ↔ x ∈ members := by
  unfold ofList
  rw [mem_dropRepeated]
  exact (List.mergeSort_perm members mayFollow).mem_iff

def contains (s : SortedSet α) (a : α) : Bool :=
  s.toList.contains a

end SortedSet

end ClassAudit
