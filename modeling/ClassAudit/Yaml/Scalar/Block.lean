import ClassAudit.Yaml.Place

/-! # Block scalars

    A block scalar is the indented lines below its header. A literal one keeps its line breaks, a
    folded one joins lines of text by spaces. The header says what happens to the line breaks at
    the end, and may give the indentation, which otherwise is that of the first line of text.
-/

namespace ClassAudit.Yaml

/-- What happens to the line breaks at the end of a block scalar. -/
inductive Chomping
  | strip
  | clip
  | keep

def readChomping : Reader Chomping := fun p => do
  let p ← p.need 1
  match p.rest with
  | '+' :: _ => return (.keep, p.next)
  | '-' :: _ => return (.strip, p.next)
  | _ => return (.clip, p)

/-- The indentation digit at a place, 0 if there is none. -/
def readIndentation : Reader Nat := fun p => do
  let p ← p.need 1
  match p.rest with
  | c :: _ =>
    if c == '0' then p.fail "found an indentation indicator equal to 0"
    else if c.isDigit then return (c.toNat - '0'.toNat, p.next)
    else return (0, p)
  | [] => return (0, p)

/-- The header of a block scalar behind its indicator, with its line break. -/
def readBlockHeader : Reader (Chomping × Nat) := fun p => do
  let p ← p.need 1
  let (chomping, increment, p) ←
    match p.rest with
    | '+' :: _ | '-' :: _ =>
      let (chomping, p) ← readChomping p
      let (increment, p) ← readIndentation p
      pure (chomping, increment, p)
    | _ =>
      let (increment, p) ← readIndentation p
      let (chomping, p) ← if increment = 0 then pure (.clip, p) else readChomping p
      pure (chomping, increment, p)
  let p ← p.skipBlanks
  let p ← if p.rest.head? == some '#' then p.skipToBreak else pure p
  if endsLine p.rest then return ((chomping, increment), ← p.skipBreak)
  p.fail "did not find expected comment or line break"

/-- The place after at most `indentation` spaces of a line, or after all if it is 0. -/
def skipIndentation (indentation : Nat) (p : Place) : Except SyntaxError Place :=
  go (p.left + 1) p
where
  go : Nat → Place → Except SyntaxError Place
    | 0, p => .ok p
    | fuel + 1, p => do
      let p ← p.need 1
      if (indentation = 0 || p.column < indentation) && p.rest.head? == some ' ' then
        go fuel p.next
      else return p

/-- The empty lines at a place: their line breaks, the greatest column reached in them, and the
    place in the next line after at most `indentation` spaces, or after all if it is 0. -/
def readEmptyLines (indentation : Nat) : Reader (List Char × Nat) := fun p =>
  go (p.left + 1) [] 0 p
where
  go : Nat → List Char → Nat → Reader (List Char × Nat)
    | 0, breaks, most, p => .ok ((breaks, most), p)
    | fuel + 1, breaks, most, p => do
      let p ← skipIndentation indentation p
      let most := max most p.column
      if (indentation = 0 || p.column < indentation) && p.rest.head? == some '\t' then
        p.fail "found a tab character where an indentation space is expected"
      else if !p.rest.isEmpty && endsLine p.rest then
        let (lineBreak, p) ← p.lineBreak
        go fuel (breaks ++ lineBreak) most p
      else return ((breaks, most), p)

/-- The block scalar behind its indicator, in a collection with indentation `outer`: its text, and
    the place after it. -/
def readBlock (literal : Bool) (outer : Int) : Reader String := fun p => do
  let ((chomping, increment), p) ← readBlockHeader p
  let given := if increment = 0 then 0 else (max outer 0).toNat + increment
  let ((breaks, most), p) ← readEmptyLines given p
  let indentation := if given = 0 then max (max most (outer + 1).toNat) 1 else given
  let p ← p.need 1
  let ((done, last, breaks), p) ← lines indentation (p.left + 1) [] [] breaks false p
  let tail :=
    match chomping with
    | .strip => []
    | .clip => last
    | .keep => last ++ breaks
  return (String.ofList (done.reverse.flatten ++ tail), p)
where
  /-- The lines of text: what has been read, the last line break and the empty lines after it.
      The flag tells whether the line before starts with a blank. -/
  lines (indentation : Nat) : Nat → List (List Char) → List Char → List Char → Bool →
      Reader (List (List Char) × List Char × List Char)
    | 0, done, last, breaks, _, p => .ok ((done, last, breaks), p)
    | fuel + 1, done, last, breaks, blankBefore, p =>
      if p.column = indentation && !p.rest.isEmpty then do
        let blankHere := p.rest.head?.any isBlank
        let joint :=
          if !literal && !blankBefore && !blankHere && last.head? == some '\n' then
            if breaks.isEmpty then [' '] else []
          else last
        let (text, p) ← Place.span (fun c => !isBreak c) p
        let (last, p) ← p.lineBreak
        let done := text :: breaks :: joint :: done
        let ((breaks, _), p) ← readEmptyLines indentation p
        lines indentation fuel done last breaks blankHere p
      else .ok ((done, last, breaks), p)

end ClassAudit.Yaml
