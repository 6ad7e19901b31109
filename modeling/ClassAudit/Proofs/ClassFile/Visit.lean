import ClassAudit.ClassFile.Event

/-! # Visits stop with the visitor

    A visit of a class goes through its parts, and through the parts of these. At every one of them
    the visitor may stop. Here is that all of this is one loop over the sequence of events
    (`ClassFile.visit_eq_each`), and what such a loop does with an arbitrary visitor: it is called
    with the events from the first one on, up to the first that it answers with a stop.

    To see with which events a visitor is called, it writes them down (`Visitor.recorded`).
-/

namespace ClassAudit

/-! ### Parts of a walk -/

namespace Walk

variable {σ α β : Type}

theorem andThen_of_true {first : Walk σ} {s : σ} (h : (first s).2 = true) (next : Walk σ) :
    first.andThen next s = next (first s).1 := by
  unfold andThen
  split
  · next s' hs => rw [hs]
  · next s' hs =>
    rw [hs] at h
    nomatch h

theorem andThen_of_false {first : Walk σ} {s : σ} (h : (first s).2 = false) (next : Walk σ) :
    first.andThen next s = ((first s).1, false) := by
  unfold andThen
  split
  · next s' hs =>
    rw [hs] at h
    nomatch h
  · next s' hs => rw [hs]

theorem andThen_done (w : Walk σ) : w.andThen done = w := by
  funext s
  cases h : (w s).2 with
  | true =>
    rw [andThen_of_true h, done, ← h]
  | false =>
    rw [andThen_of_false h, ← h]

theorem andThen_assoc (u v w : Walk σ) : (u.andThen v).andThen w = u.andThen (v.andThen w) := by
  funext s
  unfold andThen
  rcases u s with ⟨s', go⟩
  cases go with
  | true => rfl
  | false => rfl

theorem each_cons (part : α → Walk σ) (a : α) (rest : List α) :
    each part (a :: rest) = (part a).andThen (each part rest) :=
  rfl

theorem each_append (part : α → Walk σ) (xs ys : List α) :
    each part (xs ++ ys) = (each part xs).andThen (each part ys) := by
  induction xs with
  | nil => rfl
  | cons x xs ih =>
    rw [List.cons_append, each_cons, each_cons, ih, andThen_assoc]

theorem each_singleton (part : α → Walk σ) (a : α) : each part [a] = part a :=
  andThen_done (part a)

theorem each_cons_of_true {part : α → Walk σ} {a : α} {s : σ} (h : (part a s).2 = true)
    (rest : List α) : each part (a :: rest) s = each part rest (part a s).1 :=
  andThen_of_true h _

theorem each_cons_of_false {part : α → Walk σ} {a : α} {s : σ} (h : (part a s).2 = false)
    (rest : List α) : each part (a :: rest) s = ((part a s).1, false) :=
  andThen_of_false h _

theorem each_map (part : β → Walk σ) (f : α → β) (xs : List α) :
    each part (xs.map f) = each (fun a => part (f a)) xs := by
  induction xs with
  | nil => rfl
  | cons x xs ih => rw [List.map_cons, each_cons, each_cons, ih]

theorem each_flatMap (part : β → Walk σ) (f : α → List β) (xs : List α) :
    each part (xs.flatMap f) = each (fun a => each part (f a)) xs := by
  induction xs with
  | nil => rfl
  | cons x xs ih => rw [List.flatMap_cons, each_append, each_cons, ih]

end Walk

/-! ### One loop over all events -/

section Loop

open Walk

variable {σ : Type} (visitor : Event → Walk σ)

theorem Code.visitLines_eq_each (instructions : List Instruction) (lines : List LineEntry) :
    visitLines visitor instructions lines = each visitor (interleave instructions lines) := by
  induction instructions generalizing lines with
  | nil => rw [visitLines, interleave, each_map]
  | cons i instructions ih => rw [visitLines, interleave, each_append, each_map, each_cons, ih]

theorem Code.visit_eq_each (c : Code) : c.visit visitor = each visitor c.events := by
  unfold Code.visit Code.events
  rw [each_append, each_append, each_map, each_map, visitLines_eq_each, andThen_assoc]

theorem Field.visit_eq_each (f : Field) : f.visit visitor = each visitor f.events := by
  unfold Field.visit Field.events
  rw [each_cons, each_map]

theorem Method.visit_eq_each (m : Method) : m.visit visitor = each visitor m.events := by
  unfold Method.visit Method.events
  rw [each_append, each_append, each_cons, each_map, each_singleton, andThen_assoc, andThen_assoc]
  cases m.code with
  | none => rfl
  | some c =>
    show Walk.andThen _ (Walk.andThen _ ((c.visit visitor).andThen _)) = _
    rw [Code.visit_eq_each]

theorem ClassFile.visit_eq_each (c : ClassFile) : c.visit visitor = each visitor c.events := by
  have hfields : Field.visit visitor = fun f => each visitor f.events :=
    funext (Field.visit_eq_each visitor)
  have hmethods : Method.visit visitor = fun m => each visitor m.events :=
    funext (Method.visit_eq_each visitor)
  unfold ClassFile.visit ClassFile.events
  rw [hfields, hmethods]
  rw [each_append, each_append, each_append, each_append, each_cons, each_map, each_flatMap,
    each_flatMap, each_singleton, andThen_assoc, andThen_assoc, andThen_assoc, andThen_assoc]
  -- What is left is the source file, which has an event only if there is one.
  split
  · rfl
  · rw [each_singleton]

end Loop

/-! ### What a visitor is called with -/

namespace Visitor

variable {σ : Type} (visitor : Event → Walk σ)

/-- The state of a visitor that has been called with some events. -/
def stateAfter (s : σ) (called : List Event) : σ :=
  called.foldl (fun s e => (visitor e s).1) s

/-- Whether a visitor that has been called with some events goes on after the next one. -/
def answer (s : σ) (called : List Event) (e : Event) : Bool :=
  (visitor e (stateAfter visitor s called)).2

/-- A visitor that goes on after each of the events. -/
def GoesOn (s : σ) (events : List Event) : Prop :=
  ∀ before e after, events = before ++ e :: after → answer visitor s before e = true

/-- A visitor that also writes down the events with which it is called. -/
def recorded (e : Event) : Walk (σ × List Event) := fun (s, calls) =>
  (((visitor e s).1, calls ++ [e]), (visitor e s).2)

/-- A visitor that takes as many events as it is told. It stops with the last one of them, and if
    it is told to take none, it stops at once. -/
def taking (e : Event) : Walk (Nat × List Event)
  | (0, taken) => ((0, taken), false)
  | (left + 1, taken) => ((left, taken ++ [e]), left != 0)

/-- How a loop over events ends: behind all of them, or with the first that is answered with a
    stop. -/
inductive Ends (s : σ) (events : List Event) : List Event → Bool → Prop where
  | through : GoesOn visitor s events → Ends s events events true
  | stopped (before : List Event) (e : Event) (after : List Event) :
      events = before ++ e :: after → GoesOn visitor s before → answer visitor s before e = false →
      Ends s events (before ++ [e]) false

variable {visitor}

theorem goesOn_nil (s : σ) : GoesOn visitor s [] := by
  intro before e after h
  simp at h

theorem goesOn_cons {s : σ} {e : Event} {events : List Event} (h : (visitor e s).2 = true)
    (hrest : GoesOn visitor (visitor e s).1 events) : GoesOn visitor s (e :: events) := by
  intro before x after heq
  cases before with
  | nil =>
    obtain ⟨rfl, -⟩ := List.cons.inj heq
    exact h
  | cons y before =>
    obtain ⟨rfl, hevents⟩ := List.cons.inj heq
    exact hrest before x after hevents

/-- An event after which the visitor goes on, in front of a loop. -/
theorem Ends.cons {s : σ} {e : Event} {events called : List Event} {go : Bool}
    (h : (visitor e s).2 = true) (hrest : Ends visitor (visitor e s).1 events called go) :
    Ends visitor s (e :: events) (e :: called) go := by
  cases hrest with
  | through hgoes => exact .through (goesOn_cons h hgoes)
  | stopped before x after heq hgoes hanswer =>
    rw [heq]
    exact stopped (e :: before) x after rfl (goesOn_cons h hgoes) hanswer

variable (visitor) in
/-- The loop over events calls the visitor until it stops, and its state is what these calls lead
    to. -/
theorem each_ends (s : σ) (events : List Event) :
    ∃ called go, Ends visitor s events called go ∧
      Walk.each visitor events s = (stateAfter visitor s called, go) ∧
      ∀ calls, Walk.each (recorded visitor) events (s, calls) =
        ((stateAfter visitor s called, calls ++ called), go) := by
  induction events generalizing s with
  | nil =>
    refine ⟨[], true, .through (goesOn_nil s), rfl, fun calls => ?_⟩
    rw [List.append_nil]
    rfl
  | cons e events ih =>
    have hanswer (calls : List Event) :
        (recorded visitor e (s, calls)).2 = (visitor e s).2 := rfl
    cases hgo : (visitor e s).2 with
    | false =>
      -- The first event is the last one that the visitor is called with.
      refine ⟨[e], false, .stopped [] e events rfl (goesOn_nil s) hgo, ?_, fun calls => ?_⟩
      · exact Walk.each_cons_of_false hgo events
      · exact Walk.each_cons_of_false ((hanswer calls).trans hgo) events
    | true =>
      obtain ⟨called, go, hends, hrun, hrecorded⟩ := ih (visitor e s).1
      refine ⟨e :: called, go, hends.cons hgo, ?_, fun calls => ?_⟩
      · rw [Walk.each_cons_of_true hgo, hrun]
        rfl
      · rw [Walk.each_cons_of_true ((hanswer calls).trans hgo)]
        show Walk.each (recorded visitor) events ((visitor e s).1, calls ++ [e]) = _
        rw [hrecorded, List.append_assoc]
        rfl

theorem each_taking (k : Nat) (events taken : List Event) :
    (Walk.each taking events (k, taken)).1.2 = taken ++ events.take k := by
  induction events generalizing k taken with
  | nil =>
    rw [List.take_nil, List.append_nil]
    rfl
  | cons e events ih =>
    match k with
    | 0 =>
      have hstop : (taking e (0, taken)).2 = false := rfl
      rw [Walk.each_cons_of_false hstop, List.take_zero, List.append_nil]
      rfl
    | 1 =>
      have hstop : (taking e (1, taken)).2 = false := rfl
      rw [Walk.each_cons_of_false hstop]
      rfl
    | left + 2 =>
      have hgo : (taking e (left + 2, taken)).2 = true := rfl
      rw [Walk.each_cons_of_true hgo]
      show (Walk.each taking events (left + 1, taken ++ [e])).1.2 = _
      rw [ih, List.append_assoc]
      rfl

/-- A limit that is not reached yet lets as many events through as are missing. -/
theorem each_limited {limit : Nat} (events seen : List Event) (h : seen.length < limit) :
    (Walk.each (fun e seen => (e :: seen, limit == 0 || seen.length + 1 < limit)) events
      seen).1.reverse = seen.reverse ++ events.take (limit - seen.length) := by
  induction events generalizing seen with
  | nil =>
    rw [List.take_nil, List.append_nil]
    rfl
  | cons e events ih =>
    obtain ⟨missing, hmissing⟩ : ∃ missing, limit - seen.length = missing + 1 :=
      ⟨limit - seen.length - 1, by omega⟩
    rw [hmissing, List.take_succ_cons]
    have hlimit : (limit == 0) = false := by simp; omega
    -- If this is the last event that is missing, the visitor stops with it.
    cases missing with
    | zero =>
      rw [Walk.each_cons_of_false (by simp [hlimit]; omega)]
      simp
    | succ missing =>
      rw [Walk.each_cons_of_true (by simp [hlimit]; omega), ih _ (by simp; omega)]
      have hrest : limit - (e :: seen).length = missing + 1 := by
        rw [List.length_cons]
        omega
      rw [hrest, List.reverse_cons, List.append_assoc]
      rfl

end Visitor

/-! ### The events that a visitor gets -/

/-- **Stopping.** A visitor is called with the events of a class in order, and not again once it has
    stopped: either it goes on after every event, or it is called with the events up to the first
    that it answers with a stop. Its state is that after these calls. So a visitor that wants `k`
    events gets the first `k`, or all of them if there are fewer. -/
theorem ClassFile.visit_until_stopped (c : ClassFile) :
    (∀ (σ : Type) (visitor : Event → Walk σ) (s : σ), ∃ called go,
      Visitor.Ends visitor s c.events called go ∧
      c.visit visitor s = (Visitor.stateAfter visitor s called, go) ∧
      c.visit (Visitor.recorded visitor) (s, []) =
        ((Visitor.stateAfter visitor s called, called), go)) ∧
    ∀ k, (c.visit Visitor.taking (k, [])).1.2 = c.events.take k ∧
      c.firstEvents (k + 1) = c.events.take (k + 1) := by
  refine ⟨fun σ visitor s => ?_, fun k => ⟨?_, ?_⟩⟩
  · obtain ⟨called, go, hends, hrun, hrecorded⟩ := Visitor.each_ends visitor s c.events
    rw [visit_eq_each, visit_eq_each]
    exact ⟨called, go, hends, hrun, hrecorded []⟩
  · rw [visit_eq_each, Visitor.each_taking, List.nil_append]
  · unfold firstEvents
    rw [visit_eq_each, Visitor.each_limited c.events [] (Nat.succ_pos k)]
    rfl

end ClassAudit
