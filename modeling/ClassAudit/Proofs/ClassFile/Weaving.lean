import Mathlib.Logic.Basic
import ClassAudit.ClassFile.Event

/-! # Where line markers stand

    The events of a method show a row of the line table by its line alone. Here the rows are kept
    whole: `Code.weave` is the sequence of instructions and rows behind the events, and `Code.Woven`
    says where each of them stands in it. The key is one relation between any two places of the
    sequence, `Code.Precedes`, which gives all the rest.
-/

namespace ClassAudit

namespace Code

/-- An instruction or a row of the line table. -/
abbrev Mark := Instruction ⊕ LineEntry

namespace Mark

def event : Mark → Event
  | .inl i => .instruction i
  | .inr l => .lineNumber l.line

def instructions (marks : List Mark) : List Instruction :=
  marks.filterMap Sum.getLeft?

def rows (marks : List Mark) : List LineEntry :=
  marks.filterMap Sum.getRight?

theorem instructions_append (xs ys : List Mark) :
    instructions (xs ++ ys) = instructions xs ++ instructions ys :=
  List.filterMap_append

theorem rows_append (xs ys : List Mark) : rows (xs ++ ys) = rows xs ++ rows ys :=
  List.filterMap_append

theorem instructions_map_inr (lines : List LineEntry) : instructions (lines.map .inr) = [] := by
  induction lines with
  | nil => rfl
  | cons l lines ih => exact ih

theorem rows_map_inr (lines : List LineEntry) : rows (lines.map .inr) = lines := by
  induction lines with
  | nil => rfl
  | cons l lines ih => exact congrArg (l :: ·) ih

theorem mem_instructions {i : Instruction} {marks : List Mark} :
    i ∈ instructions marks ↔ .inl i ∈ marks := by
  simp [instructions]

theorem mem_rows {l : LineEntry} {marks : List Mark} : l ∈ rows marks ↔ .inr l ∈ marks := by
  simp [rows]

end Mark

/-- The marks behind the events of `interleave`. -/
def weave : List Instruction → List LineEntry → List Mark
  | [], lines => lines.map .inr
  | i :: rest, lines =>
    (lines.takeWhile (·.pc ≤ i.offset)).map .inr ++
      .inl i :: weave rest (lines.dropWhile (·.pc ≤ i.offset))

theorem interleave_eq_map (instructions : List Instruction) (lines : List LineEntry) :
    interleave instructions lines = (weave instructions lines).map Mark.event := by
  induction instructions generalizing lines with
  | nil =>
    rw [interleave, weave, List.map_map]
    rfl
  | cons i instructions ih =>
    rw [interleave, weave, List.map_append, List.map_map, List.map_cons, ih]
    rfl

/-! ### The specification -/

/-- Marks that show a code array and its line table. -/
structure Woven (instructions : List Instruction) (lines : List LineEntry) (marks : List Mark) :
    Prop where
  /-- Every instruction is shown once, in the order of the code array. -/
  instructions_eq : Mark.instructions marks = instructions
  /-- Every row is shown once. -/
  rows_perm : (Mark.rows marks).Perm lines
  /-- Rows are ordered by their offsets. -/
  rows_sorted : (Mark.rows marks).Pairwise fun a b => a.pc ≤ b.pc
  /-- Rows of one offset are in the order of the table. -/
  rows_stable : ∀ pc, (Mark.rows marks).filter (·.pc = pc) = lines.filter (·.pc = pc)
  /-- A row comes after the instructions in front of its offset and before all others. -/
  row_between : ∀ before l after, marks = before ++ .inr l :: after →
    Mark.instructions before = instructions.filter (·.offset < l.pc) ∧
      Mark.instructions after = instructions.filter (l.pc ≤ ·.offset)

/-! ### Sorting the line table -/

theorem le_trans_pc (a b c : LineEntry) (h : decide (a.pc ≤ b.pc) = true)
    (h' : decide (b.pc ≤ c.pc) = true) : decide (a.pc ≤ c.pc) = true := by
  rw [decide_eq_true_eq] at *
  omega

theorem le_total_pc (a b : LineEntry) : (decide (a.pc ≤ b.pc) || decide (b.pc ≤ a.pc)) = true := by
  rw [Bool.or_eq_true, decide_eq_true_eq, decide_eq_true_eq]
  omega

theorem sortedLines_sorted (c : Code) : c.sortedLines.Pairwise fun a b => a.pc ≤ b.pc :=
  (List.pairwise_mergeSort le_trans_pc le_total_pc c.lines).imp of_decide_eq_true

/-- The rows of one offset are a sublist of the table, which sorting keeps, and there are no
    others after it. -/
theorem sortedLines_stable (c : Code) (pc : Nat) :
    c.sortedLines.filter (·.pc = pc) = c.lines.filter (·.pc = pc) := by
  have hordered : (c.lines.filter (·.pc = pc)).Pairwise fun a b => decide (a.pc ≤ b.pc) = true := by
    rw [List.pairwise_filter]
    exact List.pairwise_of_forall fun a b ha hb => by
      rw [decide_eq_true_eq] at *
      omega
  have hsub : (c.lines.filter (·.pc = pc)).Sublist c.sortedLines :=
    List.sublist_mergeSort le_trans_pc le_total_pc hordered List.filter_sublist
  have hperm : (c.sortedLines.filter (·.pc = pc)).Perm (c.lines.filter (·.pc = pc)) :=
    (List.mergeSort_perm c.lines _).filter _
  have hsub' := hsub.filter (·.pc = pc)
  rw [List.filter_filter] at hsub'
  simp only [Bool.and_self] at hsub'
  exact (hsub'.eq_of_length hperm.length_eq.symm).symm

/-! ### Places in the sequence -/

theorem instructions_weave (instructions : List Instruction) (lines : List LineEntry) :
    Mark.instructions (weave instructions lines) = instructions := by
  induction instructions generalizing lines with
  | nil => exact Mark.instructions_map_inr lines
  | cons i instructions ih =>
    rw [weave, Mark.instructions_append, Mark.instructions_map_inr, List.nil_append]
    exact congrArg (i :: ·) (ih _)

theorem rows_weave (instructions : List Instruction) (lines : List LineEntry) :
    Mark.rows (weave instructions lines) = lines := by
  induction instructions generalizing lines with
  | nil => exact Mark.rows_map_inr lines
  | cons i instructions ih =>
    rw [weave, Mark.rows_append, Mark.rows_map_inr]
    show _ ++ Mark.rows (weave instructions _) = lines
    rw [ih, List.takeWhile_append_dropWhile]

/-- What holds of a mark and one behind it. Only a row may share its offset with what follows. -/
def Precedes : Mark → Mark → Prop
  | .inl i, .inl j => i.offset < j.offset
  | .inl i, .inr l => i.offset < l.pc
  | .inr l, .inl i => l.pc ≤ i.offset
  | .inr l, .inr k => l.pc ≤ k.pc

/-- Behind the rows at or in front of an offset, all rows lie beyond it. -/
theorem lt_of_mem_dropWhile {lines : List LineEntry} (h : lines.Pairwise fun a b => a.pc ≤ b.pc)
    {pc : Nat} {l : LineEntry} (hl : l ∈ lines.dropWhile (·.pc ≤ pc)) : pc < l.pc := by
  induction lines with
  | nil => simp at hl
  | cons a lines ih =>
    rw [List.pairwise_cons] at h
    rw [List.dropWhile_cons] at hl
    split at hl
    · exact ih h.2 hl
    · next hgt =>
      rw [decide_eq_true_eq] at hgt
      rcases List.mem_cons.mp hl with rfl | hmem
      · omega
      · have := h.1 l hmem
        omega

theorem weave_precedes {instructions : List Instruction} {lines : List LineEntry}
    (hinstructions : instructions.Pairwise fun i j => i.offset < j.offset)
    (hlines : lines.Pairwise fun a b => a.pc ≤ b.pc) :
    (weave instructions lines).Pairwise Precedes := by
  induction instructions generalizing lines with
  | nil => exact List.pairwise_map.mpr hlines
  | cons i instructions ih =>
    rw [List.pairwise_cons] at hinstructions
    have htake : ∀ l ∈ lines.takeWhile (·.pc ≤ i.offset), l.pc ≤ i.offset := fun l hl =>
      of_decide_eq_true (List.all_eq_true.mp List.all_takeWhile l hl)
    have hrest := hlines.sublist (List.dropWhile_sublist (·.pc ≤ i.offset))
    have hlater : ∀ m ∈ weave instructions (lines.dropWhile (·.pc ≤ i.offset)),
        Precedes (.inl i) m := by
      rintro (j | l) hm
      · rw [← Mark.mem_instructions, instructions_weave] at hm
        exact hinstructions.1 j hm
      · rw [← Mark.mem_rows, rows_weave] at hm
        exact lt_of_mem_dropWhile hlines hm
    rw [weave, List.pairwise_append, List.pairwise_cons, List.pairwise_map]
    refine ⟨hlines.sublist (List.takeWhile_sublist _), ⟨hlater, ih hinstructions.2 hrest⟩, ?_⟩
    -- A row in front of the instruction does not lie beyond it, and all that follows does.
    rw [List.forall_mem_map]
    intro l hl m hm
    have hle := htake l hl
    rcases List.mem_cons.mp hm with rfl | hmem
    · exact hle
    · have hlt := hlater m hmem
      rcases m with j | k
      · exact Nat.le_of_lt (Nat.lt_of_le_of_lt hle hlt)
      · exact Nat.le_of_lt (Nat.lt_of_le_of_lt hle hlt)

/-- In an ordered sequence, the instructions are divided at every row. -/
theorem instructions_between {marks before after : List Mark} {l : LineEntry}
    (h : marks.Pairwise Precedes) (hmarks : marks = before ++ .inr l :: after) :
    Mark.instructions before = (Mark.instructions marks).filter (·.offset < l.pc) ∧
      Mark.instructions after = (Mark.instructions marks).filter (l.pc ≤ ·.offset) := by
  subst hmarks
  rw [List.pairwise_append, List.pairwise_cons] at h
  have hbefore : ∀ i ∈ Mark.instructions before, i.offset < l.pc := fun i hi =>
    h.2.2 _ (Mark.mem_instructions.mp hi) _ List.mem_cons_self
  have hafter : ∀ i ∈ Mark.instructions after, l.pc ≤ i.offset := fun i hi =>
    h.2.1.1 _ (Mark.mem_instructions.mp hi)
  have hsplit : Mark.instructions (before ++ .inr l :: after) =
      Mark.instructions before ++ Mark.instructions after := Mark.instructions_append _ _
  rw [hsplit, List.filter_append, List.filter_append]
  -- Each filter keeps one side as it is and leaves nothing of the other.
  have hsmall : (Mark.instructions before).filter (·.offset < l.pc) = Mark.instructions before :=
    List.filter_eq_self.mpr fun i hi => decide_eq_true (hbefore i hi)
  have hlarge : (Mark.instructions after).filter (l.pc ≤ ·.offset) = Mark.instructions after :=
    List.filter_eq_self.mpr fun i hi => decide_eq_true (hafter i hi)
  have hnone : (Mark.instructions after).filter (·.offset < l.pc) = [] :=
    List.filter_eq_nil_iff.mpr fun i hi => by simpa using hafter i hi
  have hnone' : (Mark.instructions before).filter (l.pc ≤ ·.offset) = [] :=
    List.filter_eq_nil_iff.mpr fun i hi => by simpa using hbefore i hi
  rw [hsmall, hlarge, hnone, hnone', List.append_nil, List.nil_append]
  exact ⟨rfl, rfl⟩

theorem woven_weave {c : Code} (h : c.instructions.Pairwise fun i j => i.offset < j.offset) :
    Woven c.instructions c.lines (weave c.instructions c.sortedLines) where
  instructions_eq := instructions_weave _ _
  rows_perm := by
    rw [rows_weave]
    exact List.mergeSort_perm c.lines _
  rows_sorted := by
    rw [rows_weave]
    exact c.sortedLines_sorted
  rows_stable pc := by
    rw [rows_weave]
    exact c.sortedLines_stable pc
  row_between before l after hmarks := by
    have hbetween := instructions_between (weave_precedes h c.sortedLines_sorted) hmarks
    rwa [instructions_weave] at hbetween

end Code

/-- **Line markers.** If the offsets of the instructions of a method increase, its events are those
    of its parts in order, and between the exception table and the local variables stand every
    instruction and every row of the line table once: the instructions in order, the rows by their
    offsets and then by their places in the table, and each row behind exactly the instructions in
    front of its offset. -/
theorem Method.events_woven {m : Method} {c : Code} (hcode : m.code = some c)
    (h : c.instructions.Pairwise fun i j => i.offset < j.offset) :
    ∃ marks, Code.Woven c.instructions c.lines marks ∧
      m.events = m.declared :: m.annotations.map .annotated ++
        (c.catches.map .catchBlock ++ marks.map Code.Mark.event ++
          c.locals.map .localVariable) ++ [.methodEnd] := by
  refine ⟨_, Code.woven_weave h, ?_⟩
  unfold Method.events Code.events
  rw [hcode, ← Code.interleave_eq_map]

/-- A code array whose line table is not sorted: two rows share an offset, one row lies inside of an
    instruction and one behind all of them. -/
def Code.unsorted : Code where
  instructions := [⟨0, ⟨0xbb⟩, .type "C"⟩, ⟨3, ⟨0xc0⟩, .type "C"⟩]
  lines := [⟨9, 40⟩, ⟨3, 31⟩, ⟨0, 30⟩, ⟨1, 35⟩, ⟨3, 32⟩]
  catches := []
  locals := []

/-- A method with that code array. -/
def Method.unsorted : Method where
  access := 0
  name := "b"
  descriptor := "()V"
  signature := ""
  exceptions := []
  annotations := []
  code := some Code.unsorted

theorem Method.events_woven_unsorted :
    (Code.unsorted.instructions.Pairwise fun i j => i.offset < j.offset) ∧
      ∃ marks, Code.Woven Code.unsorted.instructions Code.unsorted.lines marks ∧
        unsorted.events = unsorted.declared :: marks.map Code.Mark.event ++ [.methodEnd] := by
  have hincreasing : Code.unsorted.instructions.Pairwise fun i j => i.offset < j.offset := by
    decide
  obtain ⟨marks, hwoven, hevents⟩ := events_woven (m := unsorted) rfl hincreasing
  refine ⟨hincreasing, marks, hwoven, ?_⟩
  rw [hevents]
  simp [unsorted, Code.unsorted]

end ClassAudit
