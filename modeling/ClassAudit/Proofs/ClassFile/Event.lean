import Mathlib.Logic.Basic
import ClassAudit.Proofs.ClassFile.Weaving

/-! # What the events of code show

    Instructions and line markers are woven into one sequence of events. Seen apart from each
    other, both keep their order: the instructions that of the code array, and the markers that of
    the line table sorted by offsets. The last marker is therefore found in the table without
    sorting it: it is the last among the rows with the greatest offset.

    Whether some event of a class has a property is a question about the parts of the class
    (`ClassFile.exists_event_iff`), for properties of events that come from parts.
-/

namespace ClassAudit

namespace Event

def instruction? : Event → Option Instruction
  | .instruction i => some i
  | _ => none

def line? : Event → Option Nat
  | .lineNumber line => some line
  | _ => none

end Event

/-! ### Instructions and markers apart -/

theorem filterMap_cons_toList {α β : Type} (f : α → Option β) (a : α) (as : List α) :
    (a :: as).filterMap f = (f a).toList ++ as.filterMap f := by
  rw [List.filterMap_cons]
  cases f a with
  | none => rfl
  | some b => rfl

theorem filterMap_map_eq_nil {α β : Type} {event : α → Event} {view : Event → Option β}
    (h : ∀ a, view (event a) = none) (xs : List α) : (xs.map event).filterMap view = [] := by
  rw [List.filterMap_eq_nil_iff]
  intro e he
  obtain ⟨a, -, rfl⟩ := List.mem_map.mp he
  exact h a

namespace Code

theorem filterMap_instruction?_interleave (instructions : List Instruction)
    (lines : List LineEntry) :
    (interleave instructions lines).filterMap Event.instruction? = instructions := by
  have hview : Event.instruction? ∘ Mark.event = Sum.getLeft? := by
    funext m
    cases m <;> rfl
  rw [interleave_eq_map, List.filterMap_map, hview]
  exact instructions_weave instructions lines

theorem filterMap_line?_interleave (instructions : List Instruction) (lines : List LineEntry) :
    (interleave instructions lines).filterMap Event.line? = lines.map LineEntry.line := by
  have hview : Event.line? ∘ Mark.event = fun m => (Sum.getRight? m).map LineEntry.line := by
    funext m
    cases m <;> rfl
  rw [interleave_eq_map, List.filterMap_map, hview, ← List.map_filterMap]
  exact congrArg (List.map LineEntry.line) (rows_weave instructions lines)

theorem filterMap_instruction?_events (c : Code) :
    c.events.filterMap Event.instruction? = c.instructions := by
  unfold events
  rw [List.filterMap_append, List.filterMap_append, filterMap_instruction?_interleave,
    filterMap_map_eq_nil fun _ => rfl, filterMap_map_eq_nil fun _ => rfl, List.nil_append,
    List.append_nil]

theorem filterMap_line?_events (c : Code) :
    c.events.filterMap Event.line? = c.sortedLines.map LineEntry.line := by
  unfold events
  rw [List.filterMap_append, List.filterMap_append, filterMap_line?_interleave,
    filterMap_map_eq_nil fun _ => rfl, filterMap_map_eq_nil fun _ => rfl, List.nil_append,
    List.append_nil]

/-! ### The last line -/

/-- A row is the last one among those with the greatest offset. -/
def Latest (lines : List LineEntry) (l : LineEntry) : Prop :=
  ∃ before after, lines = before ++ l :: after ∧
    (∀ x ∈ before, x.pc ≤ l.pc) ∧ ∀ x ∈ after, x.pc < l.pc

/-- The line of the last row with the greatest offset, or 0 if there are no rows. -/
def LastLine (lines : List LineEntry) (n : Nat) : Prop :=
  (lines = [] ∧ n = 0) ∨ ∃ l, Latest lines l ∧ n = l.line

/-- Sorting by offsets puts the latest row last. Rows of one offset keep their order, so that the
    first row of the table moves behind a row only if that row has a smaller offset. -/
theorem latest_of_getLast? {lines : List LineEntry} {l : LineEntry}
    (h : (lines.mergeSort fun a b => a.pc ≤ b.pc).getLast? = some l) : Latest lines l := by
  induction lines with
  | nil => simp at h
  | cons a lines ih =>
    have hsorted := List.pairwise_mergeSort le_trans_pc le_total_pc (a :: lines)
    obtain ⟨front, back, hcons, hrest, hfront⟩ :=
      List.mergeSort_cons le_trans_pc le_total_pc a lines
    rw [hcons] at h hsorted
    rcases List.eq_nil_or_concat back with rfl | ⟨init, x, rfl⟩
    · -- The first row goes behind all others: they have smaller offsets.
      rw [List.getLast?_concat] at h
      obtain rfl := Option.some.inj h
      refine ⟨[], lines, rfl, by simp, fun x hx => ?_⟩
      have hmem : x ∈ front := by
        rw [List.append_nil] at hrest
        rw [← hrest]
        exact (List.mergeSort_perm lines _).mem_iff.mpr hx
      have hlt := hfront x hmem
      simp only [Bool.not_eq_true', decide_eq_false_iff_not] at hlt
      omega
    · -- A row that stays last was last before, and is not overtaken.
      rw [List.concat_eq_append] at h hrest hsorted
      rw [← List.cons_append, ← List.append_assoc, List.getLast?_concat] at h
      obtain rfl := Option.some.inj h
      rw [← List.append_assoc] at hrest
      obtain ⟨before, after, rfl, hbefore, hafter⟩ := ih (by rw [hrest, List.getLast?_concat])
      refine ⟨a :: before, after, rfl, ?_, hafter⟩
      have hle : decide (a.pc ≤ x.pc) = true :=
        (List.pairwise_cons.mp (List.pairwise_append.mp hsorted).2.1).1 x (by simp)
      rw [List.forall_mem_cons]
      exact ⟨of_decide_eq_true hle, hbefore⟩

theorem lastLine_events (c : Code) :
    LastLine c.lines ((c.events.filterMap Event.line?).getLastD 0) := by
  rw [filterMap_line?_events, List.getLastD_eq_getLast?, List.getLast?_map]
  cases hlast : c.sortedLines.getLast? with
  | none =>
    rw [List.getLast?_eq_none_iff] at hlast
    have hperm := List.mergeSort_perm c.lines fun a b => a.pc ≤ b.pc
    exact .inl ⟨List.nil_perm.mp (hlast ▸ hperm), rfl⟩
  | some l => exact .inr ⟨l, latest_of_getLast? hlast, rfl⟩

end Code

/-! ### Events of parts -/

/-- A property that line markers, the source file and the ends of methods and classes do not
    have. -/
structure Event.IsOfParts (P : Event → Prop) : Prop where
  lineNumber (line : Nat) : ¬ P (.lineNumber line)
  sourceFileDeclared (file : String) : ¬ P (.sourceFileDeclared file)
  methodEnd : ¬ P .methodEnd
  classEnd : ¬ P .classEnd

section Parts

variable {P : Event → Prop} (hP : Event.IsOfParts P)

include hP

theorem Code.exists_interleave_iff (instructions : List Instruction) (lines : List LineEntry) :
    (∃ e ∈ interleave instructions lines, P e) ↔ ∃ i ∈ instructions, P (.instruction i) := by
  rw [interleave_eq_map]
  constructor
  · rintro ⟨e, he, hPe⟩
    obtain ⟨i | l, hm, rfl⟩ := List.mem_map.mp he
    · rw [← Mark.mem_instructions, instructions_weave] at hm
      exact ⟨i, hm, hPe⟩
    · exact absurd hPe (hP.lineNumber l.line)
  · rintro ⟨i, hi, hPi⟩
    rw [← instructions_weave instructions lines, Mark.mem_instructions] at hi
    exact ⟨_, List.mem_map_of_mem hi, hPi⟩

theorem Code.exists_event_iff (c : Code) :
    (∃ e ∈ c.events, P e) ↔ (∃ b ∈ c.catches, P (.catchBlock b)) ∨
      (∃ i ∈ c.instructions, P (.instruction i)) ∨ ∃ v ∈ c.locals, P (.localVariable v) := by
  unfold events
  simp only [List.mem_append, List.mem_map, or_and_right, exists_or, or_assoc,
    exists_exists_and_eq_and, Code.exists_interleave_iff hP]

omit hP in
theorem Field.exists_event_iff (f : Field) :
    (∃ e ∈ f.events, P e) ↔ P f.declared ∨ ∃ a ∈ f.annotations, P (.annotated a) := by
  unfold events
  simp only [List.mem_cons, List.mem_map, or_and_right, exists_or, exists_eq_left,
    exists_exists_and_eq_and]

theorem Method.exists_event_iff (m : Method) :
    (∃ e ∈ m.events, P e) ↔ P m.declared ∨ (∃ a ∈ m.annotations, P (.annotated a)) ∨
      ∃ c ∈ m.code, ∃ e ∈ c.events, P e := by
  unfold events
  cases m.code with
  | none =>
    simp only [List.append_nil, List.cons_append, List.mem_append, List.mem_cons, List.mem_map,
      or_and_right, exists_or, exists_eq_left, exists_exists_and_eq_and, hP.methodEnd,
      List.not_mem_nil, false_and, exists_false, or_false, Option.mem_def, reduceCtorEq]
  | some c =>
    simp only [List.cons_append, List.mem_append, List.mem_cons, List.mem_map, or_and_right,
      exists_or, or_assoc, exists_eq_left, exists_exists_and_eq_and, hP.methodEnd,
      List.not_mem_nil, or_false, Option.mem_def, Option.some.injEq, exists_eq_left']

theorem ClassFile.exists_event_iff (c : ClassFile) :
    (∃ e ∈ c.events, P e) ↔ P c.declared ∨ (∃ a ∈ c.annotations, P (.annotated a)) ∨
      (∃ f ∈ c.fields, ∃ e ∈ f.events, P e) ∨ ∃ m ∈ c.methods, ∃ e ∈ m.events, P e := by
  have hsource : ¬ ∃ e ∈ if c.sourceFile = "" then [] else [.sourceFileDeclared c.sourceFile],
      P e := by
    rintro ⟨e, he, hPe⟩
    split at he
    · simp at he
    · obtain rfl := List.mem_singleton.mp he
      exact hP.sourceFileDeclared _ hPe
  have hmembers {α : Type} (xs : List α) (events : α → List Event) :
      (∃ e, (∃ x ∈ xs, e ∈ events x) ∧ P e) ↔ ∃ x ∈ xs, ∃ e ∈ events x, P e :=
    ⟨fun ⟨e, ⟨x, hx, he⟩, hPe⟩ => ⟨x, hx, e, he, hPe⟩,
      fun ⟨x, hx, e, he, hPe⟩ => ⟨e, ⟨x, hx, he⟩, hPe⟩⟩
  unfold events
  simp only [List.cons_append, List.mem_append, List.mem_cons, List.mem_map, List.mem_flatMap,
    or_and_right, exists_or, or_assoc, exists_eq_left, exists_exists_and_eq_and, hsource, hmembers,
    hP.classEnd, List.not_mem_nil, or_false, false_or]

end Parts

end ClassAudit
