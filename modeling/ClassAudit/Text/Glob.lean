import ClassAudit.Text.Utf8

/-! # Glob patterns

    A star stands for any text without a slash, a question mark for any character but a slash,
    and a class in brackets for one of its characters. A backslash takes away the meaning of the
    next character. A pattern that is not well formed matches nothing.

    A pattern is a list of runs, each with or without a star in front. A run behind a star is
    looked for at the first place where it fits, and the search does not come back to it. Stray
    bytes stand for themselves, but not in a class.
-/

namespace ClassAudit.Text

inductive GlobItem
  | any
  | literal (s : Symbol)
  /-- One of the characters of some ranges, or none of them. -/
  | oneOf (negated : Bool) (ranges : List (Char × Char))

structure GlobRun where
  star : Bool
  items : List GlobItem

/-! ### Reading patterns -/

/-- An end of a range in a class. Something has to follow it. -/
def globBound? : List Symbol → Option (Char × List Symbol)
  | .char '-' :: _ | .char ']' :: _ => none
  | .char '\\' :: .char c :: s :: rest => some (c, s :: rest)
  | .char '\\' :: _ => none
  | .char c :: s :: rest => some (c, s :: rest)
  | _ => none

/-- The ranges of a class up to its closing bracket, at least one of them. -/
def globRanges? :
    Nat → List (Char × Char) → List Symbol → Option (List (Char × Char) × List Symbol)
  | 0, _, _ => none
  | fuel + 1, done, symbols =>
    match symbols, done with
    | .char ']' :: rest, _ :: _ => some (done.reverse, rest)
    | symbols, done => do
      let (low, rest) ← globBound? symbols
      match rest with
      | .char '-' :: rest =>
        let (high, rest) ← globBound? rest
        globRanges? fuel ((low, high) :: done) rest
      | rest => globRanges? fuel ((low, low) :: done) rest

/-- The items of a pattern, where nothing stands for a star. -/
def globItems? : Nat → List Symbol → Option (List (Option GlobItem))
  | _, [] => some []
  | 0, _ => none
  | fuel + 1, s :: symbols =>
    match s with
    | .char '*' => (globItems? fuel symbols).map (none :: ·)
    | .char '?' => (globItems? fuel symbols).map (some .any :: ·)
    | .char '[' => do
      let (negated, symbols) := match symbols with
        | .char '^' :: rest => (true, rest)
        | _ => (false, symbols)
      let (ranges, rest) ← globRanges? (symbols.length + 1) [] symbols
      (globItems? fuel rest).map (some (.oneOf negated ranges) :: ·)
    | .char '\\' =>
      match symbols with
      | t :: rest => (globItems? fuel rest).map (some (.literal t) :: ·)
      | [] => none
    | s => (globItems? fuel symbols).map (some (.literal s) :: ·)

def globRuns : List (Option GlobItem) → List GlobRun
  | [] => []
  | none :: rest =>
    match globRuns rest with
    | ⟨false, items⟩ :: runs => ⟨true, items⟩ :: runs
    | ⟨true, items⟩ :: runs => ⟨true, items⟩ :: runs
    | [] => [⟨true, []⟩]
  | some item :: rest =>
    match globRuns rest with
    | ⟨false, items⟩ :: runs => ⟨false, item :: items⟩ :: runs
    | runs => ⟨false, [item]⟩ :: runs

/-! ### Matching -/

def slash : UInt8 := 0x2f

/-- The character at the head of some bytes and the bytes after it. A byte that is no character
    counts as the replacement character. -/
def takeChar : List UInt8 → Option (Char × List UInt8)
  | [] => none
  | b :: bytes =>
    match firstChar? (b :: bytes) with
    | some (c, n) => some (c, (b :: bytes).drop n)
    | none => some (replacement, bytes)

def GlobItem.match? (item : GlobItem) (bytes : List UInt8) : Option (List UInt8) :=
  match item with
  | .literal s =>
    let word := s.bytes
    if word.isPrefixOf bytes then some (bytes.drop word.length) else none
  | .any => do
    let (c, rest) ← takeChar bytes
    if c = '/' then none else some rest
  | .oneOf negated ranges => do
    let (c, rest) ← takeChar bytes
    if (ranges.any fun (low, high) => low ≤ c && c ≤ high) == negated then none else some rest

/-- What is left of some bytes behind a run. -/
def matchItems? : List GlobItem → List UInt8 → Option (List UInt8)
  | [], bytes => some bytes
  | item :: items, bytes => (item.match? bytes).bind (matchItems? items)

/-- What is left behind a run that is found at the head of some bytes, or later if a star stands in
    front of it. The last run has to reach the end. -/
def findRun? (run : GlobRun) (isLast : Bool) : List UInt8 → Option (List UInt8)
  | [] => (matchItems? run.items []).filter fun rest => rest.isEmpty || !isLast
  | b :: bytes =>
    match (matchItems? run.items (b :: bytes)).filter fun rest => rest.isEmpty || !isLast with
    | some rest => some rest
    | none => if run.star && b != slash then findRun? run isLast bytes else none

def matchRuns : List GlobRun → List UInt8 → Bool
  | [], bytes => bytes.isEmpty
  | run :: runs, bytes =>
    if run.star && run.items.isEmpty then !bytes.contains slash
    else
      match findRun? run runs.isEmpty bytes with
      | some rest => matchRuns runs rest
      | none => false

def globMatches (pattern bytes : List UInt8) : Bool :=
  let symbols := symbols pattern
  match globItems? (symbols.length + 1) symbols with
  | some items => matchRuns (globRuns items) bytes
  | none => false

end ClassAudit.Text
