import ClassAudit.Yaml.Source

/-! # Places in a YAML text

    A reader of a text keeps the characters that are still to come, the line and the column, and
    whether anything but blanks has stood on the line since its start. Lines end at a carriage
    return, a line feed, both together, a next-line character or one of the two Unicode
    separators.

    A reader also asks for characters before it looks at them. When those that are known do not
    suffice, the next pieces of the text are decoded, which may show a fault.
-/

namespace ClassAudit.Yaml

/-- What is wrong with a text, and the line on which it shows, counted from 1. -/
structure SyntaxError where
  line : Nat
  problem : String

def SyntaxError.message (e : SyntaxError) : String :=
  "yaml: line " ++ toString e.line ++ ": " ++ e.problem

/-! ### Ends of words and lines -/

def endsWord : List Char → Bool
  | [] => true
  | c :: _ => isBlank c || isBreak c

def endsLine : List Char → Bool
  | [] => true
  | c :: _ => isBreak c

/-- Whether the text goes on with a given word that ends there. -/
def startsWord (word cs : List Char) : Bool :=
  word.isPrefixOf cs && endsWord (cs.drop word.length)

/-! ### Places -/

structure Place where
  rest : List Char
  /-- The number of characters before. -/
  index : Nat
  /-- The number of characters of the whole text. -/
  size : Nat
  /-- The number of lines before. -/
  line : Nat
  /-- The number of characters before on the line. -/
  column : Nat
  /-- Whether only blanks have stood on the line so far, and it is not the first. -/
  fresh : Bool
  /-- The number of characters that are known. The end of the text counts as one character each
      time it is asked for. -/
  known : Nat
  /-- The pieces that have not been decoded. -/
  pieces : List Piece
  /-- Whether a byte-order mark stood at the place where characters were last asked for in vain. -/
  marked : Bool

/-- A reader, which goes on from a place. -/
abbrev Reader (α : Type) := Place → Except SyntaxError (α × Place)

namespace Place

def start (source : Source) : Place :=
  ⟨source.chars, 0, source.chars.length, 0, 0, false, 0, source.pieces, false⟩

/-- The number of characters to come. -/
def left (p : Place) : Nat :=
  p.size - p.index

def fail {α : Type} (p : Place) (problem : String) : Except SyntaxError α :=
  .error ⟨p.line + 1, problem⟩

/-! ### Asking for characters -/

/-- How far the text is known after a number of characters has been asked for, and the pieces that
    are left, if no fault shows. -/
def load (wanted : Nat) : List Piece → Nat → Option (Nat × List Piece)
  | [], known => some (known + 1, [])
  | piece :: pieces, _ =>
    if !piece.sound then none
    else if wanted ≤ piece.stop then some (piece.stop, pieces)
    else load wanted pieces piece.stop

def need (p : Place) (n : Nat) : Except SyntaxError Place :=
  if p.index + n ≤ p.known then .ok p
  else
    match load (p.index + n) p.pieces p.known with
    | some (known, pieces) =>
      .ok { p with known, pieces, marked := p.rest.head? == some byteOrderMark }
    | none => p.fail "invalid or disallowed character"

/-! ### Going on -/

def next (p : Place) : Place :=
  match p.rest with
  | [] => p
  | c :: cs =>
    { p with rest := cs, index := p.index + 1, column := p.column + 1, fresh := p.fresh && isBlank c }

/-- The place `n` characters on. -/
def skip (p : Place) : Nat → Place
  | 0 => p
  | n + 1 => p.next.skip n

/-- The longest run of characters with a property, and the place after it. -/
def span (property : Char → Bool) : Reader (List Char) := fun p =>
  go (p.left + 1) [] p
where
  go : Nat → List Char → Reader (List Char)
    | 0, run, p => .ok (run.reverse, p)
    | fuel + 1, run, p => do
      let p ← p.need 1
      match p.rest with
      | c :: _ => if property c then go fuel (c :: run) p.next else return (run.reverse, p)
      | [] => return (run.reverse, p)

def skipBlanks (p : Place) : Except SyntaxError Place := do
  return (← span isBlank p).2

def skipToBreak (p : Place) : Except SyntaxError Place := do
  return (← span (fun c => !isBreak c) p).2

private def nextLine (p : Place) (n : Nat) : Place :=
  { p with
    rest := p.rest.drop n, index := p.index + n, line := p.line + 1, column := 0, fresh := true }

/-- A line break as it counts in a scalar, and the place after it. The Unicode separators are
    kept, all others count as a line feed. -/
def lineBreak : Reader (List Char) := fun p => do
  let p ← p.need 2
  match p.rest with
  | '\r' :: '\n' :: _ => return (['\n'], p.nextLine 2)
  | c :: _ =>
    if c == '\u2028' || c == '\u2029' then return ([c], p.nextLine 1)
    else if isBreak c then return (['\n'], p.nextLine 1)
    else return ([], p)
  | [] => return ([], p)

def skipBreak (p : Place) : Except SyntaxError Place :=
  if p.rest.isEmpty || !endsLine p.rest then .ok p else return (← p.lineBreak).2

/-- Whether a line starts here with a mark that bounds documents. -/
def atDocumentMark (p : Place) : Bool :=
  p.column == 0 && (startsWord ['-', '-', '-'] p.rest || startsWord ['.', '.', '.'] p.rest)

end Place

end ClassAudit.Yaml
