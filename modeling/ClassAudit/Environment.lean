import ClassAudit.Text.ByteString

/-! # Environment files

    A file of variables, one to a line: a name, an equality sign or a colon, and a value. The word
    `export` may stand in front. A value in single quotes is taken as it is; in double quotes a
    backslash escapes; without quotes it ends with the line, or at the last hash sign that has white
    space in front. A dollar sign stands for the value of a variable that was set before in the same
    file. A file need not be a text: stray bytes are kept in quotes, become replacement characters
    in other values, and count by the character of their number in names.
-/

namespace ClassAudit.Environment

open Text (Symbol)

/-- Variables and their values, the latest first. -/
abbrev Variables := List (ByteString × ByteString)

/-- The value of a variable, empty if it is not set. -/
def value (vars : Variables) (name : ByteString) : ByteString :=
  (vars.lookup name).getD .empty

def join (symbols : List Symbol) : ByteString :=
  ⟨symbols.flatMap Symbol.bytes⟩

/-! ### Characters -/

def isSpace (c : Char) : Bool :=
  c == '\t' || c == '\x0b' || c == '\x0c' || c == '\r' || c == ' ' || c == '\u0085' ||
    c == '\u00a0'

def trimSpace (cs : List Char) : List Char :=
  ((cs.dropWhile isSpace).reverse.dropWhile isSpace).reverse

/-- A byte that may stand in a name: a letter, a digit, an underscore, a point, or white space.
    Bytes beyond ASCII count by the character of that number. -/
def isNameByte (b : UInt8) : Bool :=
  let c := Char.ofNat b.toNat
  c.isAlphanum || c == '_' || c == '.' || isSpace c ||
    [0xaa, 0xb2, 0xb3, 0xb5, 0xb9, 0xba, 0xbc, 0xbd, 0xbe].contains b ||
    (0xc0 ≤ b && b != 0xd7 && b != 0xf7)

def isVariableSymbol (s : Symbol) : Bool :=
  s.char?.any fun c => ('A' ≤ c && c ≤ 'Z') || c.isDigit || c == '_'

/-! ### Values -/

def optionally (c : Char) : List Symbol → List Symbol × List Symbol
  | s :: rest => if s.is c then ([s], rest) else ([], s :: rest)
  | [] => ([], [])

/-- Puts the values of variables in. A backslash in front of a dollar sign is dropped and keeps the
    sign. -/
def expand (vars : Variables) : Nat → List Symbol → List Symbol
  | 0, symbols => symbols
  | _, [] => []
  | fuel + 1, .char '\\' :: .char '$' :: rest =>
    let (word, _, rest) := reference rest
    word ++ expand vars fuel rest
  | fuel + 1, .char '$' :: rest =>
    let (word, name, rest) := reference rest
    (if name.isEmpty then word else Text.symbols (value vars (join name)).bytes) ++
      expand vars fuel rest
  | fuel + 1, s :: rest => s :: expand vars fuel rest
where
  /-- The reference behind a dollar sign: its text, the name in it and what follows. -/
  reference (symbols : List Symbol) : List Symbol × List Symbol × List Symbol :=
    let (open1, symbols) := optionally '(' symbols
    let (open2, symbols) := optionally '{' symbols
    let name := symbols.takeWhile isVariableSymbol
    let (close, symbols) := optionally '}' (symbols.dropWhile isVariableSymbol)
    (.char '$' :: open1 ++ open2 ++ name ++ close, name, symbols)

def expanded (vars : Variables) (symbols : List Symbol) : ByteString :=
  join (expand vars (symbols.length + 1) symbols)

def breakEscapes : List Symbol → List Symbol
  | .char '\\' :: s :: rest =>
    if s.is 'n' then .char '\n' :: breakEscapes rest
    else if s.is 'r' then .char '\r' :: breakEscapes rest
    else .char '\\' :: s :: breakEscapes rest
  | s :: rest => s :: breakEscapes rest
  | [] => []

/-- Drops the backslashes in front of all characters but a dollar sign. -/
def dropEscapes : List Symbol → List Symbol
  | .char '\\' :: s :: rest =>
    if s.is '$' then .char '\\' :: dropEscapes (s :: rest) else s :: dropEscapes rest
  | s :: rest => s :: dropEscapes rest
  | [] => []

/-- The part of a line in front of a comment, which starts with the last hash sign that has white
    space in front. -/
def dropComment (line : List Char) : List Char :=
  match go line.reverse with
  | some before => before.reverse
  | none => line
where
  /-- The same for a line that is read from its end. -/
  go : List Char → Option (List Char)
    | '#' :: c :: rest => if isSpace c then some (c :: rest) else go (c :: rest)
    | _ :: rest => go rest
    | [] => none

/-- What stands between quotes, up to the first quote that has no backslash in front, and what
    follows. -/
def quoted (quote : Char) : Symbol → List Symbol → Option (List Symbol × List Symbol)
  | _, [] => none
  | before, s :: rest =>
    if s.is quote && !before.is '\\' then some ([], rest)
    else (quoted quote s rest).map fun (text, rest) => (s :: text, rest)

/-- The value at the head of some symbols, and what follows it. -/
def readValue (vars : Variables) (symbols : List Symbol) : Option (ByteString × List Symbol) :=
  match symbols with
  | .char '"' :: rest => do
    let (text, rest) ← quoted '"' (.char '"') rest
    return (expanded vars (dropEscapes (breakEscapes (trimQuotes '"' text))), rest)
  | .char '\'' :: rest => do
    let (text, rest) ← quoted '\'' (.char '\'') rest
    return (join (trimQuotes '\'' text), rest)
  | symbols =>
    let isInLine (s : Symbol) : Bool := !s.is '\n' && !s.is '\r'
    let line := (symbols.takeWhile isInLine).map Symbol.shown
    some (expanded vars ((trimSpace (dropComment line)).map .char), symbols.dropWhile isInLine)
where
  trimQuotes (quote : Char) (symbols : List Symbol) : List Symbol :=
    ((symbols.dropWhile (·.is quote)).reverse.dropWhile (·.is quote)).reverse

/-! ### Files -/

/-- The rest of a file from the next variable on, without white space and comments in front. -/
def nextStatement : Nat → List Symbol → List Symbol
  | 0, cs => cs
  | fuel + 1, cs =>
    match cs.dropWhile fun s => Text.isBlank s.shown with
    | s :: rest =>
      if s.shown == '#' then nextStatement fuel (rest.dropWhile fun s => s.shown != '\n')
      else s :: rest
    | [] => []

def endsName (s : Symbol) : Bool :=
  s.shown == '=' || s.shown == ':'

/-- The name of a variable, and what follows its equality sign or colon. Without either the name is
    empty and the value is the whole text, which must not be empty. -/
def readName (cs : List Symbol) : Option (ByteString × List Symbol) :=
  let cs := dropExport cs
  let name := cs.takeWhile (!endsName ·)
  if name.all (·.bytes.all isNameByte) then
    match cs.dropWhile (!endsName ·) with
    | _ :: rest => some ((join name).trim, dropSpace rest)
    | [] => if cs.isEmpty then none else some (.empty, dropSpace cs)
  else none
where
  dropSpace (cs : List Symbol) : List Symbol :=
    cs.dropWhile fun s => isSpace s.shown
  dropExport (cs : List Symbol) : List Symbol :=
    let cs := dropSpace cs
    let word := "export".toList
    let rest := cs.drop word.length
    if (cs.take word.length).map Symbol.shown == word && rest.head?.any fun s => isSpace s.shown then
      dropSpace rest
    else cs

/-- The variables of a file, or nothing if it cannot be read. -/
def statements : Nat → Variables → List Symbol → Option Variables
  | 0, vars, _ => some vars
  | fuel + 1, vars, cs =>
    match nextStatement (fuel + 1) cs with
    | [] => some vars
    | cs => do
      let (name, rest) ← readName cs
      let (value, rest) ← readValue vars rest
      statements fuel ((name, value) :: vars) rest

/-- A file whose lines all end with a line feed alone. -/
def unixLines : List UInt8 → List UInt8
  | a :: b :: rest => if a = 13 ∧ b = 10 then 10 :: unixLines rest else a :: unixLines (b :: rest)
  | bytes => bytes

/-- The variables of an environment file, or nothing if it cannot be read. -/
def parse? (bytes : List UInt8) : Option Variables :=
  let cs := Text.symbols (unixLines bytes)
  statements (cs.length + 1) [] cs

end ClassAudit.Environment
