import ClassAudit.Yaml.Place

/-! # Plain scalars

    A plain scalar is words with spacing between. Spacing inside a line is kept, a single line
    break counts as a space, and of several line breaks the first is dropped.
-/

namespace ClassAudit.Yaml

/-! ### Spacing -/

/-- What stands between two words of a scalar. -/
structure Spacing where
  blanks : List Char
  first : Option (List Char)
  more : List Char

namespace Spacing

def none : Spacing :=
  ⟨[], .none, []⟩

/-- The spacing after an escaped line break, which itself counts for nothing. -/
def escaped : Spacing :=
  ⟨[], some [], []⟩

def text (s : Spacing) : List Char :=
  match s.first with
  | .none => s.blanks
  | some ('\n' :: _) => if s.more.isEmpty then [' '] else s.more
  | some first => first ++ s.more

/-- The spacing with one more blank. Blanks at the start of a line do not count. -/
def addBlank (s : Spacing) (c : Char) : Spacing :=
  match s.first with
  | .none => { s with blanks := s.blanks ++ [c] }
  | some _ => s

def addBreak (s : Spacing) (lineBreak : List Char) : Spacing :=
  match s.first with
  | .none => ⟨[], some lineBreak, s.more⟩
  | some _ => { s with more := s.more ++ lineBreak }

end Spacing

/-- The blanks and line breaks at a place, added to spacing. With an indentation given, a tab in
    it at the start of a line is an error. -/
def readSpacing (indentation : Option Int) (spacing : Spacing) : Reader Spacing := fun p =>
  go (p.left + 1) spacing p
where
  go : Nat → Spacing → Reader Spacing
    | 0, s, p => .ok (s, p)
    | fuel + 1, s, p => do
      let p ← p.need 1
      match p.rest with
      | [] => return (s, p)
      | c :: _ =>
        if isBlank c then
          if c == '\t' && s.first.isSome && indentation.any ((p.column : Int) < ·) then
            p.fail "found a tab character that violates indentation"
          else go fuel (s.addBlank c) p.next
        else if isBreak c then
          let (lineBreak, p) ← p.lineBreak
          go fuel (s.addBreak lineBreak) p
        else return (s, p)

/-! ### Words -/

def isFlowIndicator (c : Char) : Bool :=
  c == ',' || c == '?' || c == '[' || c == ']' || c == '{' || c == '}'

/-- Whether a plain word goes on at the head of a text. It ends at white space, at a colon before
    white space, and inside brackets at their indicators. -/
def wordGoesOn (inFlow : Bool) : List Char → Bool
  | [] => false
  | c :: cs =>
    !(isBlank c || isBreak c || (c == ':' && endsWord cs) || (inFlow && isFlowIndicator c))

def readWord (inFlow : Bool) : Reader (List Char) := fun p =>
  go (p.left + 1) [] p
where
  go : Nat → List Char → Reader (List Char)
    | 0, done, p => .ok (done.reverse, p)
    | fuel + 1, done, p =>
      match p.rest with
      | c :: _ =>
        if wordGoesOn inFlow p.rest then do
          let p ← p.next.need 2
          go fuel (c :: done) p
        else .ok (done.reverse, p)
      | [] => .ok (done.reverse, p)

/-- A plain scalar: its text, and whether a line break was read after it. The scalar goes on over
    lines that are indented by at least `indentation`. -/
def readPlain (inFlow : Bool) (indentation : Int) : Reader (String × Bool) := fun p =>
  go (p.left + 1) [] .none p
where
  go : Nat → List (List Char) → Spacing → Reader (String × Bool)
    | 0, done, s, p => finish done s p
    | fuel + 1, done, s, p => do
      let p ← p.need 4
      if p.atDocumentMark || p.rest.head? == some '#' then finish done s p
      else
        match ← readWord inFlow p with
        | ([], p) => finish done s p
        | (word, p) =>
          let done := word :: s.text :: done
          if p.rest.isEmpty || !endsWord p.rest then finish done .none p
          else
            let (s, p) ← readSpacing (some indentation) .none p
            if !inFlow && (p.column : Int) < indentation then finish done s p
            else go fuel done s p
  finish (done : List (List Char)) (s : Spacing) : Reader (String × Bool) := fun p =>
    .ok ((String.ofList done.reverse.flatten, s.first.isSome), p)

end ClassAudit.Yaml
