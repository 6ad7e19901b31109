import ClassAudit.Text.Blank

/-! # Text fields

    A field of a form holds a line of text with a cursor in it. The text is kept in two parts, what
    is in front of the cursor and what is behind it, so that each edit is local. A field takes part
    in editing only while it has the focus. Text that spells a shortcut is taken for the shortcut.
-/

namespace ClassAudit

structure TextField where
  /-- The characters in front of the cursor, the nearest first. -/
  before : List Char
  after : List Char
  focused : Bool

inductive Edit
  | backspace
  | delete
  | left
  | right
  | home
  | toEnd
  | wordLeft
  | wordRight
  | deleteWordLeft
  | deleteWordRight
  | deleteToStart
  | deleteToEnd
  /-- A shortcut that means nothing to a field, such as to choose among suggestions. -/
  | none
  | insert (text : String)

/-- The edit that typed text stands for: that of the shortcut it spells, or else the text is put in
    as it is. -/
def Edit.ofTyped : String → Edit
  | "backspace" | "ctrl+h" => .backspace
  | "delete" | "ctrl+d" => .delete
  | "left" | "ctrl+b" => .left
  | "right" | "ctrl+f" => .right
  | "home" | "ctrl+a" => .home
  | "end" | "ctrl+e" => .toEnd
  | "alt+left" | "ctrl+left" | "alt+b" => .wordLeft
  | "alt+right" | "ctrl+right" | "alt+f" => .wordRight
  | "alt+backspace" | "ctrl+w" => .deleteWordLeft
  | "alt+delete" | "alt+d" => .deleteWordRight
  | "ctrl+u" => .deleteToStart
  | "ctrl+k" => .deleteToEnd
  | "down" | "ctrl+n" | "up" | "ctrl+p" | "ctrl+v" => .none
  | text => .insert text

namespace TextField

def empty : TextField :=
  ⟨[], [], false⟩

def value (f : TextField) : String :=
  String.ofList (f.before.reverse ++ f.after)

def limit : Nat := 1024

def setFocus (f : TextField) (focused : Bool) : TextField :=
  { f with focused }

/-! ### Editing -/

def isControl (c : Char) : Bool :=
  c.toNat < 0x20 || (0x7f ≤ c.toNat && c.toNat < 0xa0)

/-- What a field takes of a character: tabs and line breaks become spaces, other control characters
    and replacement characters are dropped. -/
def accept? (c : Char) : Option Char :=
  if c == '\t' || c == '\n' || c == '\r' then some ' '
  else if isControl c || c == '\ufffd' then none
  else some c

/-- The number of characters that a cursor passes to get behind the next word: white space, and the
    word. -/
def wordReach (cs : List Char) : Nat :=
  let word := cs.dropWhile Text.isBlank
  cs.length - (word.dropWhile (!Text.isBlank ·)).length

/-- The number of characters in front of the cursor that are deleted with a word, the nearest first.
    White space at the start of the text is deleted with the word behind it. -/
def deletedLeft (before : List Char) : Nat :=
  let reach := wordReach before
  if reach + 1 = before.length then before.length else reach

/-- The number of characters behind the cursor that are deleted with a word. The first one is
    deleted whatever it is. -/
def deletedRight (after : List Char) : Nat :=
  match after with
  | [] => 0
  | _ :: rest => wordReach rest + 1

def moveLeft (f : TextField) (n : Nat) : TextField :=
  { f with before := f.before.drop n, after := (f.before.take n).reverse ++ f.after }

def moveRight (f : TextField) (n : Nat) : TextField :=
  { f with before := (f.after.take n).reverse ++ f.before, after := f.after.drop n }

/-- The field after an edit, without regard to the focus. Of a text that is put in, what exceeds
    the limit is cut off. -/
def apply (f : TextField) : Edit → TextField
  | .backspace => { f with before := f.before.drop 1 }
  | .delete => { f with after := f.after.drop 1 }
  | .left => f.moveLeft 1
  | .right => f.moveRight 1
  | .home => f.moveLeft f.before.length
  | .toEnd => f.moveRight f.after.length
  | .wordLeft => f.moveLeft (wordReach f.before)
  | .wordRight => f.moveRight (wordReach f.after)
  | .deleteWordLeft => { f with before := f.before.drop (deletedLeft f.before) }
  | .deleteWordRight => { f with after := f.after.drop (deletedRight f.after) }
  | .deleteToStart => { f with before := [] }
  | .deleteToEnd => { f with after := [] }
  | .none => f
  | .insert text =>
    let free := limit - (f.before.length + f.after.length)
    { f with before := ((text.toList.filterMap accept?).take free).reverse ++ f.before }

def edit (f : TextField) (e : Edit) : TextField :=
  if f.focused then f.apply e else f

/-! ### View -/

/-- How a field is shown: a placeholder if it is empty, and else its text, with a space for the
    cursor if that is behind the text. -/
def view (f : TextField) (placeholder : String) : String :=
  "  " ++
    if f.before.isEmpty && f.after.isEmpty then placeholder
    else f.value ++ (if f.after.isEmpty then " " else "")

end TextField

end ClassAudit
