import ClassAudit.Form.Basic

/-! # Forms that are filled in

    One field of a form has the focus, and edits go to that field. Two things have to agree for
    that: the position that the form keeps, and what each field knows about itself. `Form.Valid`
    says that they do.

    - `Form.Transition` is all that a key can do to a form: nothing, moving the focus, submitting
      the form, or an edit. `Form.transition_press` says so once, and what a key keeps follows case
      by case.
    - `Form.Valid.press` keeps a form valid along one key, and `Form.Valid.pressAll` along all keys.
    - `Form.Step` is what can be seen of one key: where the focus goes, which text changes, and
      whether the form is submitted.
-/

namespace ClassAudit

variable {questions : List Question} {f g : Form} {key : Key}

/-! ### Fields -/

namespace TextField

@[simp] theorem value_setFocus (field : TextField) (b : Bool) :
    (field.setFocus b).value = field.value :=
  rfl

@[simp] theorem focused_setFocus (field : TextField) (b : Bool) : (field.setFocus b).focused = b :=
  rfl

@[simp] theorem focused_edit (field : TextField) (e : Edit) :
    (field.edit e).focused = field.focused := by
  unfold edit
  split
  · cases e <;> rfl
  · rfl

end TextField

/-- What stays the same in every element that is modified stays the same in the list. -/
theorem map_modify_of_keeps {α β : Type} {change : α → α} {view : α → β}
    (h : ∀ a, view (change a) = view a) (xs : List α) (i : Nat) :
    (xs.modify i change).map view = xs.map view := by
  apply List.ext_getElem?
  intro j
  rw [List.getElem?_map, List.getElem?_map, List.getElem?_modify]
  cases xs[j]? with
  | none => rfl
  | some a =>
    show some (view (if i = j then change a else a)) = some (view a)
    split
    · rw [h]
    · rfl

/-! ### Valid forms -/

/-- How far a key moves the focus. -/
def Key.shift : Key → Int
  | .tab | .down | .enter => 1
  | .shiftTab | .up => -1
  | .escape | .interrupt | .edit _ | .other => 0

def Key.isEdit : Key → Bool
  | .edit _ => true
  | _ => false

namespace Form

def values (f : Form) : List String :=
  f.fields.map (·.2.value)

/-- A form has one field for each question, and its focus is on one of them, which is the only one
    that takes edits. -/
structure Valid (questions : List Question) (f : Form) : Prop where
  questions : f.fields.map Prod.fst = questions
  focus_lt : f.focus < f.fields.length
  focused : ∀ i q field, f.fields[i]? = some (q, field) → (field.focused = true ↔ i = f.focus)

/-- Where a key takes the focus: as far as the key says, but not out of the form. -/
def target (f : Form) (key : Key) : Int :=
  max 0 (min (f.focus + key.shift) (f.fields.length - 1))

/-- What can be seen of a key that turns a form into another one. -/
structure Step (f : Form) (key : Key) (g : Form) : Prop where
  focus : g.focus = f.target key
  /-- Only the text of the field with the focus can change, -/
  elsewhere : ∀ i, i ≠ f.focus → g.values[i]? = f.values[i]?
  /-- only an edit changes it, -/
  kept : key.isEdit = false → g.values = f.values
  /-- and every edit gets there. -/
  edited : ∀ e q field, key = .edit e → f.fields[f.focus]? = some (q, field) →
    g.values[f.focus]? = some (field.apply e).value
  /-- A form is submitted from its last field. -/
  submitted : g.submitted = true ↔
    f.submitted = true ∨ key = .enter ∧ f.focus + 1 = f.fields.length

theorem lt_of_target (h : f.focus < f.fields.length) {i : Nat} (hi : i = f.target key) :
    i < f.fields.length := by
  unfold target at hi
  omega

/-! ### What a key does -/

/-- A form with an edit made in the field that has the focus. -/
def editFocused (f : Form) (e : Edit) : Form :=
  { f with fields := f.fields.modify f.focus fun (q, field) => (q, field.edit e) }

/-- All that a key can do to a form. -/
inductive Transition (f : Form) : Key → Form → Prop where
  | stay {key : Key} : key.shift = 0 → key.isEdit = false → Transition f key f
  | move {key : Key} {i : Nat} : i = f.target key → key.isEdit = false →
      ¬(key = .enter ∧ f.focus + 1 = f.fields.length) → Transition f key (f.moveFocus i)
  | submit : f.focus + 1 = f.fields.length → Transition f .enter { f with submitted := true }
  | edit (e : Edit) : Transition f (.edit e) (f.editFocused e)

/-- A move is one to a position of the form. -/
theorem moveFocus_min (f : Form) (i : Nat) :
    f.moveFocus i = f.moveFocus (min i (f.fields.length - 1)) := by
  unfold moveFocus
  simp only [Nat.min_assoc, Nat.min_self]

theorem transition_press (h : f.focus < f.fields.length) (key : Key) :
    Transition f key (f.press key).1 := by
  have hne : f.fields.isEmpty = false := by
    rw [List.isEmpty_eq_false_iff]
    exact List.ne_nil_of_length_pos (Nat.zero_lt_of_lt h)
  unfold press
  rw [hne, if_neg Bool.false_ne_true]
  have hnext : (min (f.focus + 1) (f.fields.length - 1) : Nat) =
      max 0 (min ((f.focus : Int) + 1) (f.fields.length - 1)) := by
    omega
  cases key with
  | other => exact .stay rfl rfl
  | escape => exact .stay rfl rfl
  | interrupt => exact .stay rfl rfl
  | edit e => exact .edit e
  | tab | down =>
    rw [moveFocus_min]
    exact .move hnext rfl (by simp)
  | shiftTab | up =>
    exact .move (by simp only [target, Key.shift]; omega) rfl (by simp)
  | enter =>
    dsimp only
    split
    · next hend => exact .submit (by simpa [isAtEnd] using hend)
    · next hend =>
      rw [moveFocus_min]
      exact .move hnext rfl (by simpa [isAtEnd] using hend)

/-! ### Moving the focus -/

theorem fields_moveFocus (h : f.fields ≠ []) (i : Nat) :
    (f.moveFocus i).fields =
      (f.fields.modify f.focus fun (q, field) => (q, field.setFocus false)).modify
        (min i (f.fields.length - 1)) fun (q, field) => (q, field.setFocus true) := by
  rw [moveFocus, if_neg (by simpa using h)]

theorem focus_moveFocus (h : f.fields ≠ []) (i : Nat) :
    (f.moveFocus i).focus = min i (f.fields.length - 1) := by
  rw [moveFocus, if_neg (by simpa using h)]

theorem submitted_moveFocus (f : Form) (i : Nat) : (f.moveFocus i).submitted = f.submitted := by
  unfold moveFocus
  split <;> rfl

theorem map_fields_moveFocus {β : Type} {view : Question × TextField → β}
    (hview : ∀ q field b, view (q, field.setFocus b) = view (q, field)) (f : Form) (i : Nat) :
    (f.moveFocus i).fields.map view = f.fields.map view := by
  unfold moveFocus
  split
  · rfl
  · rw [map_modify_of_keeps fun x => hview x.1 x.2 true,
      map_modify_of_keeps fun x => hview x.1 x.2 false]

theorem values_moveFocus (f : Form) (i : Nat) : (f.moveFocus i).values = f.values :=
  map_fields_moveFocus (fun _ _ _ => rfl) f i

/-- The field that had the focus loses it, and the one at the new position gets it. -/
theorem valid_moveFocus (hquestions : f.fields.map Prod.fst = questions)
    (hfocused : ∀ i q field, f.fields[i]? = some (q, field) → field.focused = true → i = f.focus)
    {i : Nat} (hi : i < f.fields.length) : (f.moveFocus i).Valid questions := by
  have hne : f.fields ≠ [] := List.ne_nil_of_length_pos (Nat.zero_lt_of_lt hi)
  have hmin : min i (f.fields.length - 1) = i := by omega
  have hfocus : (f.moveFocus i).focus = i := by rw [focus_moveFocus hne, hmin]
  have hsame : (f.moveFocus i).fields.map Prod.fst = f.fields.map Prod.fst :=
    map_fields_moveFocus (fun _ _ _ => rfl) f i
  have hlength : (f.moveFocus i).fields.length = f.fields.length := by
    simpa using congrArg List.length hsame
  refine ⟨hsame.trans hquestions, by rw [hfocus, hlength]; exact hi, ?_⟩
  intro j q field hget
  rw [fields_moveFocus hne, hmin, List.getElem?_modify, List.getElem?_modify] at hget
  rw [hfocus]
  cases hold : f.fields[j]? with
  | none => simp [hold] at hget
  | some x =>
    obtain ⟨q', old⟩ := x
    simp only [hold, Option.map_eq_map, Option.map_some, Option.some.injEq] at hget
    split at hget
    · next hij =>
      obtain ⟨-, rfl⟩ := Prod.mk.inj hget
      simp [hij]
    · next hij =>
      split at hget
      · obtain ⟨-, rfl⟩ := Prod.mk.inj hget
        simp [Ne.symm hij]
      · next hother =>
        obtain ⟨-, rfl⟩ := Prod.mk.inj hget
        have hwithout : old.focused ≠ true := fun hold' =>
          hother (hfocused j q' old hold hold').symm
        simp [hwithout, Ne.symm hij]

/-! ### Edits -/

theorem getElem?_editFocused (f : Form) (e : Edit) (i : Nat) :
    (f.editFocused e).fields[i]? =
      f.fields[i]?.map fun x => if f.focus = i then (x.1, x.2.edit e) else x :=
  List.getElem?_modify ..

theorem map_fields_editFocused {β : Type} {view : Question × TextField → β} {e : Edit}
    (hview : ∀ q field, view (q, field.edit e) = view (q, field)) (f : Form) :
    (f.editFocused e).fields.map view = f.fields.map view :=
  map_modify_of_keeps (fun x => hview x.1 x.2) _ _

theorem Valid.editFocused (h : f.Valid questions) (e : Edit) :
    (f.editFocused e).Valid questions := by
  have hquestions : (f.editFocused e).fields.map Prod.fst = f.fields.map Prod.fst :=
    map_fields_editFocused (fun _ _ => rfl) f
  have hfocused : (f.editFocused e).fields.map (·.2.focused) = f.fields.map (·.2.focused) :=
    map_fields_editFocused (fun _ field => field.focused_edit e) f
  have hlength : (f.editFocused e).fields.length = f.fields.length := List.length_modify ..
  refine ⟨hquestions.trans h.questions, by rw [hlength]; exact h.focus_lt, ?_⟩
  intro i q field hget
  have hsame := congrArg (·[i]?) hfocused
  simp only [List.getElem?_map, hget, Option.map_some] at hsame
  obtain ⟨old, hold, heq⟩ := Option.map_eq_some_iff.mp hsame.symm
  rw [← heq]
  exact h.focused i old.1 old.2 hold

/-! ### One key -/

theorem Valid.press (h : f.Valid questions) (key : Key) : (f.press key).1.Valid questions := by
  have hstep := transition_press h.focus_lt key
  generalize (f.press key).1 = g at hstep
  cases hstep with
  | stay _ _ => exact h
  | move hi _ _ =>
    refine valid_moveFocus h.questions (fun i q field hget => (h.focused i q field hget).mp) ?_
    exact lt_of_target h.focus_lt hi
  | submit _ => exact ⟨h.questions, h.focus_lt, h.focused⟩
  | edit e => exact h.editFocused e

/-- What a key does to the focus, to the texts and to the form as a whole. -/
theorem Valid.step (h : f.Valid questions) (key : Key) : f.Step key (f.press key).1 := by
  have hstep := transition_press h.focus_lt key
  have hlt := h.focus_lt
  generalize (f.press key).1 = g at hstep
  cases hstep with
  | stay hshift hkey =>
    refine ⟨by rw [target, hshift]; omega, fun _ _ => rfl, fun _ => rfl, ?_, ?_⟩
    · rintro e _ _ rfl
      cases hkey
    · have henter : key ≠ .enter := by
        rintro rfl
        cases hshift
      simp [henter]
  | @move _ i hi hkey hend =>
    have hne : f.fields ≠ [] := List.ne_nil_of_length_pos (Nat.zero_lt_of_lt hlt)
    have hvalues := values_moveFocus f i
    have hin : i < f.fields.length := lt_of_target hlt hi
    refine ⟨?_, fun _ _ => by rw [hvalues], fun _ => hvalues, ?_, ?_⟩
    · rw [focus_moveFocus hne, ← hi]
      omega
    · rintro e _ _ rfl
      cases hkey
    · simp [submitted_moveFocus, hend]
  | submit hend =>
    refine ⟨?_, fun _ _ => rfl, fun _ => rfl, nofun, by simp [hend]⟩
    simp only [target, Key.shift]
    omega
  | edit e =>
    refine ⟨?_, fun i hi => ?_, nofun, ?_, ?_⟩
    · show (f.focus : Int) = f.target (.edit e)
      simp only [target, Key.shift]
      omega
    · rw [values, values, List.getElem?_map, List.getElem?_map, getElem?_editFocused]
      simp [Ne.symm hi]
    · rintro e' q field heq hget
      obtain rfl : e = e' := Key.edit.inj heq
      have hfocused : field.focused = true := (h.focused _ q field hget).mpr rfl
      rw [values, List.getElem?_map, getElem?_editFocused, hget]
      simp [TextField.edit, hfocused]
    · show f.submitted = true ↔ _
      simp

/-! ### All keys -/

theorem Valid.pressAll (h : f.Valid questions) (keys : List Key) :
    (f.pressAll keys).Valid questions := by
  induction keys generalizing f with
  | nil => exact h
  | cons key keys ih => exact ih (h.press key)

theorem valid_ofQuestions (h : questions ≠ []) : (ofQuestions questions).Valid questions := by
  refine valid_moveFocus (by simp [Function.comp_def]) ?_ (by simpa using List.length_pos_iff.mpr h)
  intro i q field hget hfocused
  obtain ⟨_, -, heq⟩ := List.mem_map.mp (List.mem_of_getElem? hget)
  obtain ⟨-, rfl⟩ := Prod.mk.inj heq
  cases hfocused

/-- A form is submitted by the first key for it on the last field, and stays so. -/
theorem Valid.submitted_pressAll (h : f.Valid questions) (keys : List Key) :
    (f.pressAll keys).submitted = true ↔ f.submitted = true ∨
      ∃ before after, keys = before ++ .enter :: after ∧
        (f.pressAll before).focus + 1 = questions.length := by
  induction keys generalizing f with
  | nil => simp [Form.pressAll]
  | cons key keys ih =>
    have hlength : f.fields.length = questions.length := by rw [← h.questions, List.length_map]
    rw [show f.pressAll (key :: keys) = (f.press key).1.pressAll keys from rfl, ih (h.press key),
      (h.step key).submitted, hlength, or_assoc]
    refine or_congr_right ⟨?_, ?_⟩
    · rintro (⟨rfl, hend⟩ | ⟨before, after, rfl, hend⟩)
      · exact ⟨[], keys, rfl, hend⟩
      · exact ⟨key :: before, after, rfl, hend⟩
    · rintro ⟨before, after, hkeys, hend⟩
      cases before with
      | nil =>
        obtain ⟨rfl, -⟩ := List.cons.inj hkeys
        exact .inl ⟨rfl, hend⟩
      | cons first before =>
        obtain ⟨rfl, rfl⟩ := List.cons.inj hkeys
        exact .inr ⟨before, after, rfl, hend⟩

/-- **The focus of a form.** Whatever keys are pressed, a form has one field for each question and
    one field with the focus, which is the only one that takes edits. The next key moves the focus
    inside the form, changes no text but that of this field, and only if it is an edit. The form
    is submitted exactly if the key for it has been pressed on the last field. -/
theorem pressAll_keeps_focus (h : questions ≠ []) (keys : List Key) :
    ((ofQuestions questions).pressAll keys).Valid questions ∧
    (∀ key, ((ofQuestions questions).pressAll keys).Step key
      ((ofQuestions questions).pressAll (keys ++ [key]))) ∧
    (((ofQuestions questions).pressAll keys).submitted = true ↔
      ∃ before after, keys = before ++ .enter :: after ∧
        ((ofQuestions questions).pressAll before).focus + 1 = questions.length) := by
  have hstart := valid_ofQuestions h
  have hvalid := hstart.pressAll keys
  refine ⟨hvalid, fun key => ?_, ?_⟩
  · have hnext : (ofQuestions questions).pressAll (keys ++ [key]) =
        (((ofQuestions questions).pressAll keys).press key).1 := by
      simp [pressAll]
    rw [hnext]
    exact hvalid.step key
  · rw [hstart.submitted_pressAll keys, ofQuestions, submitted_moveFocus]
    simp

/-- Keys that move at both ends of a form of two questions, and fill in the first of them. -/
def sampleKeys : List Key :=
  [.up, .edit (.insert "a"), .tab, .tab, .shiftTab, .edit (.insert "b"), .enter]

theorem pressAll_keeps_focus_sample :
    Question.ofChecks [.deps] ≠ [] ∧
      ((ofQuestions (Question.ofChecks [.deps])).pressAll sampleKeys).Valid
        (Question.ofChecks [.deps]) ∧
      ((ofQuestions (Question.ofChecks [.deps])).pressAll sampleKeys).values = ["ab", ""] ∧
      ((ofQuestions (Question.ofChecks [.deps])).pressAll (sampleKeys ++ [.tab])).values =
        ["ab", ""] ∧
      ((ofQuestions (Question.ofChecks [.deps])).pressAll (sampleKeys ++ [.enter])).submitted =
        true := by
  have hne : Question.ofChecks [.deps] ≠ [] := by decide
  obtain ⟨hvalid, hstep, -⟩ := pressAll_keeps_focus hne sampleKeys
  have hsubmitted := (pressAll_keeps_focus hne (sampleKeys ++ [.enter])).2.2
  have hvalues : ((ofQuestions (Question.ofChecks [.deps])).pressAll sampleKeys).values =
      ["ab", ""] := by decide
  refine ⟨hne, hvalid, hvalues, ((hstep .tab).kept rfl).trans hvalues, ?_⟩
  exact hsubmitted.mpr ⟨sampleKeys, [], rfl, by decide⟩

end Form

end ClassAudit
