import ClassAudit.Text.Hex
import ClassAudit.Xml.Element
import ClassAudit.Xml.NameChar

/-! # Reading XML

    A text is read up to the end of its root element. Comments, instructions and declarations are
    skipped, as is text. Well-formedness is checked on the way: names, quoting, references to
    characters, and the nesting of elements.

    Readers that repeat a step take a bound on the number of steps. One more than the number of
    symbols to come is enough.
-/

namespace ClassAudit.Xml

open Text (Symbol)

abbrev Scan := StateT (List Symbol) (Except XmlError)

def malformed {α : Type} (problem : String) : Scan α :=
  throw (.notWellFormed problem)

def next : Scan Symbol := do
  match ← get with
  | s :: rest => set rest; return s
  | [] => malformed "unexpected EOF"

def expect (c : Char) (problem : String) : Scan Unit := do
  if !(← next).is c then malformed problem

def isSpace (s : Symbol) : Bool :=
  s.is ' ' || s.is '\r' || s.is '\n' || s.is '\t'

def skipSpace : Scan Unit :=
  modify (·.dropWhile isSpace)

/-- A character that may stand in a document. -/
def isAllowed (c : Char) : Bool :=
  let n := c.toNat
  n == 0x09 || n == 0x0a || n == 0x0d || (0x20 ≤ n && n ≤ 0xfffd) || 0x10000 ≤ n

/-- The text of symbols, all of which have to be characters that may stand in a document. -/
def textOf (symbols : List Symbol) : Scan String :=
  match symbols.mapM Symbol.char? with
  | none => malformed "invalid UTF-8"
  | some cs => if cs.all isAllowed then return String.ofList cs else malformed "illegal character code"

/-! ### Names -/

/-- A symbol that is read as part of a name, before the name is checked. -/
def isNameSymbol : Symbol → Bool
  | .char c => 0x80 ≤ c.toNat || c.isAlphanum || c == '_' || c == ':' || c == '.' || c == '-'
  | .stray _ => true

def scanName : Scan (List Char) := do
  let symbols ← get
  let name := symbols.takeWhile isNameSymbol
  set (symbols.dropWhile isNameSymbol)
  if (← get).isEmpty then malformed "unexpected EOF"
  match name.mapM Symbol.char? with
  | some name => if isName name then return name else malformed "invalid XML name"
  | none => malformed "invalid XML name"

/-- A name in two parts. The first is the part in front of the only colon, unless one of the two
    is empty. -/
structure QualifiedName where
  space : String
  localName : String
  deriving DecidableEq

def scanQualifiedName : Scan QualifiedName := do
  let name ← scanName
  let space := name.takeWhile (· != ':')
  let localName := (name.dropWhile (· != ':')).drop 1
  if localName.contains ':' then
    malformed "expected element name"
  if space.isEmpty || localName.isEmpty then return ⟨"", String.ofList name⟩
  return ⟨String.ofList space, String.ofList localName⟩

/-! ### Text -/

def entity? : String → Option Char
  | "lt" => some '<'
  | "gt" => some '>'
  | "amp" => some '&'
  | "apos" => some '\''
  | "quot" => some '"'
  | _ => none

/-- The number written in decimal or hexadecimal digits. -/
def codePoint? (hexadecimal : Bool) (digits : List Char) : Option Nat :=
  if digits.isEmpty then none
  else if hexadecimal then Text.hexNumber? digits
  else some (digits.foldl (fun n c => 10 * n + (c.toNat - '0'.toNat)) 0)

/-- The character of a code point. A surrogate is read as the replacement character. -/
def charOfCode? (code : Nat) : Option Char :=
  if 0x10ffff < code then none
  else if 0xd800 ≤ code ∧ code ≤ 0xdfff then some '\ufffd'
  else some (Char.ofNat code)

def digits (isDigit : Char → Bool) (symbols : List Symbol) : List Char × List Symbol :=
  let p (s : Symbol) : Bool := s.char?.any isDigit
  ((symbols.takeWhile p).map Symbol.shown, symbols.dropWhile p)

def scanReference : Scan Char := do
  let (found, rest) := match ← get with
    | .char '#' :: .char 'x' :: rest =>
      let (ds, rest) := digits (fun c => (Text.hexValue? c).isSome) rest
      ((codePoint? true ds).bind charOfCode?, rest)
    | .char '#' :: rest =>
      let (ds, rest) := digits Char.isDigit rest
      ((codePoint? false ds).bind charOfCode?, rest)
    | symbols =>
      (((symbols.takeWhile isNameSymbol).mapM Symbol.char?).bind fun cs => entity? (String.ofList cs),
        symbols.dropWhile isNameSymbol)
  match found, rest with
  | some c, .char ';' :: rest => set rest; return c
  | _, _ => malformed "invalid character entity"

/-- The text up to a closing quote, or up to the next element if there is none. A line ends with a
    line feed, however it was written. -/
def scanText (quote : Option Char) (bound : Nat) : Scan String := do
  textOf (← go bound (.char '\x00', .char '\x00') [])
where
  /-- The text from here; the two symbols before are kept, a reference counting as none. -/
  go : Nat → Symbol × Symbol → List Symbol → Scan (List Symbol)
    | 0, _, done => return done.reverse
    | fuel + 1, (before, last), done => do
      match ← get with
      | [] => return done.reverse
      | c :: rest =>
        if quote.isNone && before.is ']' && last.is ']' && c.is '>' then
          malformed "unescaped ]]> not in CDATA section"
        else if c.is '<' then
          if quote.isSome then malformed "unescaped < inside quoted string"
          else return done.reverse
        else if quote.any fun q => c.is q then
          set rest
          return done.reverse
        else
          set rest
          if c.is '&' then
            let d ← scanReference
            go fuel (.char '\x00', .char '\x00') (.char d :: done)
          else if c.is '\r' then go fuel (last, c) (.char '\n' :: done)
          else if last.is '\r' && c.is '\n' then go fuel (last, c) done
          else go fuel (last, c) (c :: done)

def scanSection (bound : Nat) : Scan Unit := do
  let _ ← textOf (← go bound [])
where
  go : Nat → List Symbol → Scan (List Symbol)
    | 0, _ => malformed "unexpected EOF in CDATA section"
    | fuel + 1, done => do
      match ← get with
      | .char ']' :: .char ']' :: .char '>' :: rest => set rest; return done.reverse
      | c :: rest => set rest; go fuel (c :: done)
      | [] => malformed "unexpected EOF in CDATA section"

/-! ### Comments, instructions and declarations -/

/-- The rest of a comment, in which two dashes may stand only at its end. -/
def scanComment : Nat → Scan Unit
  | 0 => malformed "unexpected EOF"
  | bound + 1 => do
    match ← get with
    | .char '-' :: .char '-' :: .char '>' :: rest => set rest
    | .char '-' :: .char '-' :: _ => malformed "invalid sequence \"--\" not allowed in comments"
    | _ :: rest => set rest; scanComment bound
    | [] => malformed "unexpected EOF"

def startsWith (word : List Char) (symbols : List Symbol) : Bool :=
  match word, symbols with
  | [], _ => true
  | _ :: _, [] => false
  | c :: word, s :: symbols => s.is c && startsWith word symbols

/-- What follows the first occurrence of a word. -/
def after? (word : List Char) : List Symbol → Option (List Symbol)
  | [] => none
  | s :: rest =>
    if startsWith word (s :: rest) then some ((s :: rest).drop word.length) else after? word rest

def parameter (name : String) (text : List Symbol) : List Symbol :=
  go (text.length + 1) text
where
  go : Nat → List Symbol → List Symbol
    | 0, _ => []
    | fuel + 1, text =>
      match after? (name.toList ++ ['=']) text with
      | some (.char '"' :: rest) => upTo '"' rest
      | some (.char '\'' :: rest) => upTo '\'' rest
      | some (_ :: rest) => go fuel rest
      | _ => []
  upTo (quote : Char) (rest : List Symbol) : List Symbol :=
    if rest.any (·.is quote) then rest.takeWhile (!·.is quote) else []

def lower (symbols : List Symbol) : String :=
  String.ofList (symbols.map fun s => s.shown.toLower)

/-- The rest of an instruction. The one that opens a document names its version and encoding. -/
def scanInstruction : Scan Unit := do
  let target ← scanName
  skipSpace
  match bounded [] (← get) with
  | none => malformed "unexpected EOF"
  | some (text, rest) =>
    if target == ['x', 'm', 'l'] then
      let version := parameter "version" text
      if !version.isEmpty && lower version != "1.0" then throw (.version version)
      let encoding := parameter "encoding" text
      if !encoding.isEmpty && lower encoding != "utf-8" then throw (.encoding encoding)
    set rest
where
  /-- The text up to a question mark and an angle, and what follows. -/
  bounded : List Symbol → List Symbol → Option (List Symbol × List Symbol)
    | done, .char '?' :: .char '>' :: rest => some (done.reverse, rest)
    | done, s :: rest => bounded (s :: done) rest
    | _, [] => none

/-- The rest of a declaration, with the declarations inside it. Angles in quotes and in comments
    do not count. -/
def scanDeclaration (bound : Nat) : Scan Unit := do
  let _ ← next
  go (3 * bound) none 0
where
  go : Nat → Option Char → Int → Scan Unit
    | 0, _, _ => malformed "unexpected EOF"
    | fuel + 1, quote, depth => do
      let c ← next
      match quote with
      | some q => go fuel (if c.is q then none else quote) depth
      | none => if c.is '>' && depth == 0 then return else special fuel c depth
  /-- One symbol outside quotes that does not end the declaration. -/
  special : Nat → Symbol → Int → Scan Unit
    | 0, _, _ => malformed "unexpected EOF"
    | fuel + 1, c, depth =>
      if c.is '\'' then go fuel (some '\'') depth
      else if c.is '"' then go fuel (some '"') depth
      else if c.is '>' then go fuel none (depth - 1)
      else if c.is '<' then angle fuel depth
      else go fuel none depth
  /-- What follows an opening angle: a comment, or a declaration inside this one. The symbol behind
      what it has in common with the start of a comment does not end the declaration. -/
  angle : Nat → Int → Scan Unit
    | 0, _ => malformed "unexpected EOF"
    | fuel + 1, depth => do
      match ← get with
      | .char '!' :: .char '-' :: .char '-' :: rest =>
        match after? ['-', '-', '>'] rest with
        | some rest => set rest; go fuel none depth
        | none => malformed "unexpected EOF"
      | .char '!' :: .char '-' :: rest | .char '!' :: rest | rest =>
        set rest
        let c ← next
        special fuel c (depth + 1)

/-! ### Elements -/

inductive Markup
  | opening (name : QualifiedName) (attributes : List (String × String)) (closed : Bool)
  | closing (name : QualifiedName)
  /-- Text, a comment, an instruction or a declaration. -/
  | other

def scanValue (bound : Nat) : Scan String := do
  match ← next with
  | .char '"' => scanText (some '"') bound
  | .char '\'' => scanText (some '\'') bound
  | _ => malformed "unquoted or missing attribute value in element"

def scanAttributes : Nat → List (String × String) → Scan (List (String × String) × Bool)
  | 0, _ => malformed "unexpected EOF"
  | bound + 1, done => do
    skipSpace
    match ← get with
    | [] => malformed "unexpected EOF"
    | .char '/' :: rest =>
      set rest
      expect '>' "expected /> in element"
      return (done.reverse, true)
    | .char '>' :: rest => set rest; return (done.reverse, false)
    | _ =>
      let name ← scanQualifiedName
      skipSpace
      expect '=' "attribute name without = in element"
      skipSpace
      let value ← scanValue bound
      scanAttributes bound ((name.localName, value) :: done)

/-- The next piece of markup or text, which must not be missing. -/
def scanMarkup (bound : Nat) : Scan Markup := do
  match ← get with
  | [] => malformed "unexpected EOF"
  | .char '<' :: rest =>
    set rest
    match rest with
    | .char '/' :: rest =>
      set rest
      let name ← scanQualifiedName
      skipSpace
      expect '>' "invalid characters in end element"
      return .closing name
    | .char '?' :: rest => set rest; scanInstruction; return .other
    | .char '!' :: .char '-' :: rest =>
      set rest
      expect '-' "invalid sequence <!- not part of <!--"
      scanComment bound
      return .other
    | .char '!' :: .char '[' :: rest =>
      let word := "CDATA[".toList
      if startsWith word rest then
        set (rest.drop word.length)
        scanSection bound
        return .other
      else malformed "invalid <![ sequence"
    | .char '!' :: rest => set rest; scanDeclaration bound; return .other
    | _ =>
      let name ← scanQualifiedName
      let (attributes, closed) ← scanAttributes bound []
      return .opening name attributes closed
  | _ => let _ ← scanText none bound; return .other

def scanContent (name : QualifiedName) : Nat → Scan (List Element)
  | 0 => malformed "unexpected EOF"
  | bound + 1 => do
    match ← scanMarkup (bound + 1) with
    | .other => scanContent name bound
    | .closing found =>
      if found = name then return []
      else malformed "element closed by another name"
    | .opening child attributes closed =>
      let children ← if closed then pure [] else scanContent child bound
      return .mk child.localName attributes children :: (← scanContent name bound)

def scanRoot (expected : String) : Nat → Scan Element
  | 0 => throw .noElement
  | bound + 1 => do
    if (← get).isEmpty then throw .noElement
    match ← scanMarkup (bound + 1) with
    | .other => scanRoot expected bound
    | .closing _ => malformed "unexpected end element"
    | .opening name attributes closed =>
      if name.localName ≠ expected then throw (.wrongRoot expected name.localName)
      let children ← if closed then pure [] else scanContent name bound
      return .mk name.localName attributes children

/-- The root element of a text, if it has the expected name. -/
def parse (expected : String) (bytes : List UInt8) : Except XmlError Element :=
  let symbols := Text.symbols bytes
  match (scanRoot expected (symbols.length + 1)).run symbols with
  | .ok (root, _) => .ok root
  | .error e => .error e

end ClassAudit.Xml
