import ClassAudit.Yaml.Scalar.Block
import ClassAudit.Yaml.Scalar.Quoted
import ClassAudit.Yaml.Token.Property

/-! # The stream of tokens

    Tokens are found one after the other, a few ahead of what the grammar has taken. The state
    knows the indentations of the open block collections and, for each level of brackets, the
    token that may turn out to be a key. A key is found by the colon behind it, which has to
    stand on the same line and within 1024 characters; its mark is then put into the queue in
    front of the token. So a token that may still be a key is not handed out.

    Which tokens have to wait is kept apart from the candidates themselves: a token waits for the
    candidate that its level of brackets has by then. Brackets without a candidate inside release
    their own opening token when they are closed, and if that has been handed out before the colon
    comes, the mark of the key goes to the end of the queue.
-/

namespace ClassAudit.Yaml

/-- The last token on a level of brackets that might have turned out to be a key. -/
structure KeyCandidate where
  /-- Whether it still might. -/
  possible : Bool
  /-- Whether nothing but a key may stand here. -/
  required : Bool
  /-- The number of the token, counted from the start of the stream. -/
  token : Nat
  index : Nat
  line : Nat
  column : Nat

structure TokenStream where
  place : Place
  /-- Whether a key may start here. -/
  keyAllowed : Bool
  /-- The column of the innermost open block collection, -1 if there is none. -/
  indentation : Int
  /-- The columns around it, from the inside. -/
  outer : List Int
  level : Nat
  /-- The key candidate inside the innermost brackets. -/
  candidate : KeyCandidate
  /-- The key candidates of the levels around it, from the inside. -/
  brackets : List KeyCandidate
  /-- The tokens that wait for a candidate, with its level. -/
  waiting : List (Nat × Nat)
  /-- Tokens that have been found and not been taken, in order. -/
  queue : List Token
  /-- The number of tokens that have been taken. The start of the stream counts as one. -/
  taken : Nat

namespace TokenStream

abbrev Step := TokenStream → Except SyntaxError TokenStream

def ofSource (source : Source) : TokenStream :=
  ⟨.start source, true, -1, [], 0, ⟨false, false, 0, 0, 0, 0⟩, [], [], [], 1⟩

def inFlow (s : TokenStream) : Bool :=
  s.level != 0

def token (s : TokenStream) (kind : TokenKind) : Token :=
  ⟨kind, s.place.line + 1⟩

/-- The number that the next token at the end of the queue gets. -/
def nextNumber (s : TokenStream) : Nat :=
  s.taken + s.queue.length

def push (s : TokenStream) (t : Token) : TokenStream :=
  { s with queue := s.queue ++ [t] }

/-- The stream with a token in front of the one with a given number, or at the end of the queue if
    that one has been taken. -/
def insertBefore (s : TokenStream) (number : Nat) (t : Token) : TokenStream :=
  if number < s.taken then s.push t
  else { s with queue := s.queue.insertIdx (number - s.taken) t }

/-! ### Keys -/

/-- Whether a candidate can still be a key when the stream has come to a place. -/
def reaches (k : KeyCandidate) (p : Place) : Bool :=
  p.line ≤ k.line && p.index ≤ k.index + 1024

/-- The candidate, which may turn out to be none here. One that had to be a key and no longer can
    be is an error. -/
def settle (s : TokenStream) (k : KeyCandidate) : Except SyntaxError KeyCandidate :=
  if !k.possible || reaches k s.place then .ok k
  else if k.required then .error ⟨k.line + 1, "could not find expected ':'"⟩
  else .ok { k with possible := false }

def release (s : TokenStream) (number : Nat) : TokenStream :=
  { s with waiting := s.waiting.filter (·.1 != number) }

def dropKey : Step := fun s =>
  let k := s.candidate
  if !k.possible then .ok s
  else if k.required then .error ⟨k.line + 1, "could not find expected ':'"⟩
  else .ok { s.release k.token with candidate := { k with possible := false } }

def newCandidate (s : TokenStream) (possible required : Bool) : KeyCandidate :=
  ⟨possible, required, s.nextNumber, s.place.index, s.place.line, s.place.column⟩

/-- Makes the token that comes next the candidate of this level, where a key may start. -/
def saveKey : Step := fun s =>
  if s.keyAllowed then do
    let s ← s.dropKey
    let k := s.newCandidate true (!s.inFlow && s.indentation == s.place.column)
    return { s with candidate := k, waiting := (k.token, s.level) :: s.waiting }
  else .ok s

/-! ### Indentation -/

/-- Closes the block collections that are indented by more than a column. The line on which the
    search for the next token started is where they end. -/
def unroll (s : TokenStream) (line : Nat) (column : Int) : TokenStream :=
  if s.inFlow then s else go s.outer s
where
  go : List Int → TokenStream → TokenStream
    | [], s => s
    | o :: outer, s =>
      if column < s.indentation then
        go outer { s.push ⟨.blockEnd, line + 1⟩ with indentation := o, outer := outer }
      else s

/-- The greatest number of block collections, or of brackets, inside each other. -/
def depthLimit : Nat := 10000

/-- Opens a block collection, unless one of this column or more is open. The token stands at the
    end of the queue, or in front of the one with a given number. -/
def roll (kind : TokenKind) (line column : Nat) (number : Option Nat) : Step := fun s =>
  if s.inFlow || !(s.indentation < (column : Int)) then .ok s
  else if depthLimit < s.outer.length + 1 then s.place.fail "exceeded max depth of 10000"
  else
    let s := { s with indentation := column, outer := s.indentation :: s.outer }
    let t : Token := ⟨kind, line + 1⟩
    .ok (match number with
      | none => s.push t
      | some n => s.insertBefore n t)

/-! ### White space and comments -/

/-- The farthest that a comment is looked for. -/
def commentReach : Nat := 512

/-- Asks for the characters from a distance on, one after the other, as long as they have a
    property and are not too far. Tells the distance of the first one without it. -/
def findAhead (property : Char → Bool) (distance : Nat) : Reader (Option Nat) := fun p =>
  go (commentReach - distance) distance (p.rest.drop distance) p
where
  go : Nat → Nat → List Char → Reader (Option Nat)
    | 0, _, _, p => .ok (none, p)
    | fuel + 1, distance, cs, p => do
      let p ← p.need (distance + 1)
      match cs with
      | c :: cs => if property c then go fuel (distance + 1) cs p else return (some distance, p)
      | [] => return (some distance, p)

/-- Whether a character may stand between two lines of comments. -/
def isGap (c : Char) : Bool :=
  isBlank c || c == '\n' || c == '\r'

def skipGap : Nat → Place → Except SyntaxError Place
  | 0, p => .ok p
  | fuel + 1, p => do
    let p ← p.need 1
    match p.rest with
    | c :: _ =>
      if isBlank c then skipGap fuel p.next
      else if isBreak c then skipGap fuel (← p.skipBreak)
      else return p
    | [] => return p

/-- The place behind a comment and the comments that follow it over blank lines only. -/
def skipComments : Nat → Place → Except SyntaxError Place
  | 0, p => .ok p
  | fuel + 1, p => do
    let p ← p.skipToBreak
    let (distance, p) ← findAhead isGap 1 p
    match distance with
    | none => return p
    | some n =>
      if p.rest.head?.any isGap && p.rest[n]? == some '#' then
        skipComments fuel (← skipGap (p.left + 1) p)
      else return p

/-- Goes on to the next token. Tabs count as white space inside brackets and where no key may
    start. As long as the known text starts with a byte-order mark, the first character of every
    line is skipped. -/
def skipToToken (s : TokenStream) : Except SyntaxError TokenStream :=
  go (s.place.left + 1) s
where
  go : Nat → TokenStream → Except SyntaxError TokenStream
    | 0, s => .ok s
    | fuel + 1, s => do
      let p ← s.place.need 1
      let p := if p.column == 0 && p.marked then p.next else p
      let tabs := s.inFlow || !s.keyAllowed
      let (_, p) ← Place.span (fun c => c == ' ' || (tabs && c == '\t')) p
      let p ← if p.rest.head? == some '#' then skipComments (p.left + 1) p else pure p
      if !p.rest.isEmpty && endsLine p.rest then
        go fuel { s with place := ← p.skipBreak, keyAllowed := s.keyAllowed || !s.inFlow }
      else return { s with place := p }

def skipLineComment : Step := fun s =>
  if s.place.fresh then .ok s
  else do
    let (distance, p) ← findAhead isBlank 0 s.place
    match distance with
    | some n =>
      if p.rest[n]? == some '#' then return { s with place := ← p.skipToBreak }
      else return { s with place := p }
    | none => return { s with place := p }

/-! ### Tokens -/

def indicator (kind : TokenKind) (n : Nat) : Step := fun s =>
  .ok { s.push (s.token kind) with place := s.place.skip n }

def endToken : Step := fun s => do
  let p := s.place
  let p := if p.column = 0 then p else { p with line := p.line + 1, column := 0 }
  let s ← dropKey (unroll { s with place := p } p.line (-1))
  return { s.push (s.token .streamEnd) with keyAllowed := false }

def directiveToken : Step := fun s => do
  let s ← dropKey (s.unroll s.place.line (-1))
  let (kind, p) ← readDirective s.place
  return { s.push (s.token kind) with place := p, keyAllowed := false }

def documentToken (kind : TokenKind) : Step := fun s => do
  let s ← dropKey (s.unroll s.place.line (-1))
  indicator kind 3 { s with keyAllowed := false }

def openToken (kind : TokenKind) : Step := fun s => do
  let s ← s.saveKey
  if depthLimit < s.level + 1 then s.place.fail "exceeded max depth of 10000"
  indicator kind 1
    { s with
      level := s.level + 1, brackets := s.candidate :: s.brackets,
      candidate := s.newCandidate false false, keyAllowed := true }

def closeToken (kind : TokenKind) : Step := fun s => do
  let s ← s.dropKey
  let s := match s.brackets with
    | k :: rest =>
      { s.release s.candidate.token with level := s.level - 1, brackets := rest, candidate := k }
    | [] => s
  indicator kind 1 { s with keyAllowed := false }

def entryToken : Step := fun s => do
  let s ← s.dropKey
  indicator .flowEntry 1 { s with keyAllowed := true }

def dashToken : Step := fun s => do
  if !s.inFlow && !s.keyAllowed then
    s.place.fail "block sequence entries are not allowed in this context"
  let s ← s.roll .blockSequenceStart s.place.line s.place.column none
  let s ← s.dropKey
  indicator .blockEntry 1 { s with keyAllowed := true }

/-- The question mark of a key. -/
def keyToken : Step := fun s => do
  if !s.inFlow && !s.keyAllowed then
    s.place.fail "mapping keys are not allowed in this context"
  let s ← s.roll .blockMappingStart s.place.line s.place.column none
  let s ← s.dropKey
  indicator .key 1 { s with keyAllowed := !s.inFlow }

def valueToken : Step := fun s => do
  let k ← s.settle s.candidate
  if k.possible then
    let s := s.insertBefore k.token ⟨.key, k.line + 1⟩
    let s ← s.roll .blockMappingStart k.line k.column (some k.token)
    indicator .value 1
      { s.release k.token with candidate := { k with possible := false }, keyAllowed := false }
  else
    if !s.inFlow && !s.keyAllowed then
      s.place.fail "mapping values are not allowed in this context"
    let s := { s with candidate := k }
    let s ← s.roll .blockMappingStart s.place.line s.place.column none
    indicator .value 1 { s with keyAllowed := !s.inFlow }

def nameToken (kind : String → TokenKind) : Step := fun s => do
  let s ← s.saveKey
  let (name, p) ← readName s.place.next
  return { s.push (s.token (kind name)) with place := p, keyAllowed := false }

def tagToken : Step := fun s => do
  let s ← s.saveKey
  let ((handle, suffix), p) ← readTag s.place
  return { s.push (s.token (.tag handle suffix)) with place := p, keyAllowed := false }

def blockToken (literal : Bool) : Step := fun s => do
  let s ← s.dropKey
  let (text, p) ← readBlock literal s.indentation s.place.next
  return { s.push (s.token (.scalar text .block)) with place := p, keyAllowed := true }

def quotedToken (double : Bool) : Step := fun s => do
  let s ← s.saveKey
  let (text, p) ← readQuoted double s.place.next
  return { s.push (s.token (.scalar text .quoted)) with place := p, keyAllowed := false }

def plainToken : Step := fun s => do
  let s ← s.saveKey
  let ((text, broken), p) ← readPlain s.inFlow (s.indentation + 1) s.place
  return { s.push (s.token (.scalar text .plain)) with place := p, keyAllowed := broken }

/-- Whether a plain scalar may start with a character, when `cs` follow it. -/
def startsPlain (inFlow : Bool) (c : Char) (cs : List Char) : Bool :=
  !(isBlank c || isBreak c || "-?:,[]\x7b\x7d#&*!|>'\"%@`".toList.contains c) ||
    (c == '-' && !cs.head?.any isBlank) ||
    (!inFlow && (c == '?' || c == ':') && !endsWord cs)

/-- The token that starts with a character, when `cs` follow it. -/
def contentToken (c : Char) (cs : List Char) : Step := fun s =>
  let bounded := s.inFlow || endsWord cs
  match c with
  | '[' => s.openToken .flowSequenceStart
  | '{' => s.openToken .flowMappingStart
  | ']' => s.closeToken .flowSequenceEnd
  | '}' => s.closeToken .flowMappingEnd
  | ',' => s.entryToken
  | '*' => s.nameToken .alias
  | '&' => s.nameToken .anchor
  | '!' => s.tagToken
  | '\'' => s.quotedToken false
  | '"' => s.quotedToken true
  | _ =>
    if c == '-' && endsWord cs then s.dashToken
    else if c == '?' && bounded then s.keyToken
    else if c == ':' && bounded then s.valueToken
    else if (c == '|' || c == '>') && !s.inFlow then s.blockToken (c == '|')
    else if startsPlain s.inFlow c cs then s.plainToken
    else s.place.fail "found character that cannot start any token"

def fetch : Step := fun s => do
  let line := s.place.line
  let s ← s.skipToToken
  let s := s.unroll line s.place.column
  let s := { s with place := ← s.place.need 4 }
  match s.place.rest with
  | [] => s.endToken
  | c :: cs =>
    if s.place.column = 0 && c == '%' then s.directiveToken
    else if s.place.atDocumentMark then
      s.documentToken (if c == '-' then .documentStart else .documentEnd)
    else
      let s ← s.contentToken c cs
      match s.queue.getLast? with
      | some ⟨.blockEntry, _⟩ => return s
      | _ => s.skipLineComment

def candidateAt? (s : TokenStream) (level : Nat) : Option KeyCandidate :=
  if s.level < level then none else (s.candidate :: s.brackets)[s.level - level]?

def setCandidate (s : TokenStream) (level : Nat) (k : KeyCandidate) : TokenStream :=
  if level = s.level then { s with candidate := k }
  else { s with brackets := s.brackets.set (s.level - level - 1) k }

def headWaits (s : TokenStream) : Except SyntaxError (Bool × TokenStream) := do
  match s.waiting.lookup s.taken with
  | none => return (false, s)
  | some level =>
    match s.candidateAt? level with
    | none => return (false, s)
    | some k =>
      let k ← s.settle k
      return if k.possible then (true, s) else (false, s.setCandidate level k)

/-- Finds tokens until three are ahead and the first can no longer turn out to be a key. -/
def fill (s : TokenStream) : Except SyntaxError TokenStream :=
  go (s.place.left + 8) s
where
  go : Nat → TokenStream → Except SyntaxError TokenStream
    | 0, s => .ok s
    | fuel + 1, s =>
      if 2 < s.queue.length then do
        match ← s.headWaits with
        | (false, s) => return s
        | (true, s) => s.fetch >>= go fuel
      else s.fetch >>= go fuel

def peek (s : TokenStream) : Except SyntaxError (Token × TokenStream) := do
  let s ← s.fill
  match s.queue with
  | t :: _ => return (t, s)
  | [] => return (s.token .streamEnd, s)

/-- Takes the token at the head. Tokens that have been taken do not wait. -/
def take (s : TokenStream) : TokenStream :=
  { s with
    queue := s.queue.tail, taken := s.taken + 1, waiting := s.waiting.filter (s.taken < ·.1) }

end TokenStream

end ClassAudit.Yaml
