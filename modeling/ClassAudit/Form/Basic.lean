import ClassAudit.Check
import ClassAudit.Form.Field

/-! # The form of questions

    A form shows all questions at once, each with a field for its answer. One of the fields has the
    focus. A key moves the focus, edits the field that has it, or ends the form: by leaving it, or
    by submitting it from the last field.
-/

namespace ClassAudit

inductive Key
  | tab
  | down
  | shiftTab
  | up
  | enter
  | escape
  | interrupt
  | edit (e : Edit)
  /-- Anything that is no key. -/
  | other

structure Form where
  fields : List (Question × TextField)
  focus : Nat
  submitted : Bool

namespace Form

/-- A form with the focus moved to a position, or to the last one if that comes before it. -/
def moveFocus (f : Form) (position : Nat) : Form :=
  if f.fields.isEmpty then f
  else
    let position := min position (f.fields.length - 1)
    { f with
      fields := (f.fields.modify f.focus fun (q, field) => (q, field.setFocus false)).modify
        position fun (q, field) => (q, field.setFocus true)
      focus := position }

def ofQuestions (questions : List Question) : Form :=
  moveFocus ⟨questions.map (·, .empty), 0, false⟩ 0

def isAtEnd (f : Form) : Bool :=
  f.focus + 1 == f.fields.length

def press (f : Form) (key : Key) : Form × Bool :=
  if f.fields.isEmpty then (f, false)
  else
    match key with
    | .other => (f, false)
    | .escape | .interrupt => (f, true)
    | .tab | .down => (f.moveFocus (f.focus + 1), false)
    | .shiftTab | .up => (f.moveFocus (f.focus - 1), false)
    | .enter =>
      if f.isAtEnd then ({ f with submitted := true }, true)
      else (f.moveFocus (f.focus + 1), false)
    | .edit e =>
      ({ f with fields := f.fields.modify f.focus fun (q, field) => (q, field.edit e) }, false)

def pressAll (f : Form) (keys : List Key) : Form :=
  keys.foldl (fun f key => (f.press key).1) f

/-- The answers, without white space around them, under the keys of their settings. -/
def answers (f : Form) : List (String × String) :=
  f.fields.map fun (q, field) => (q.key, Text.trim field.value)

/-! ### View -/

def heading : String :=
  "classguard init (tab: next, enter on the last answer: save, esc: cancel)\n\n"

def viewField (hasFocus : Bool) (q : Question) (field : TextField) : String :=
  (if hasFocus then ">" else " ") ++ " " ++ q.prompt ++ "\n" ++ field.view q.key ++ "\n"

/-- How a form is shown. One that has been submitted is not. -/
def view (f : Form) : String :=
  if f.submitted then ""
  else
    heading ++ String.join (f.fields.mapIdx fun i (q, field) => viewField (i == f.focus) q field)

end Form

end ClassAudit
