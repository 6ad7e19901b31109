import ClassAudit.Text.Hex
import ClassAudit.Yaml.Token

/-! # Anchors, tags and directives

    A node may carry a name, by which it can be repeated, and a tag. A tag is a full one in angle
    brackets, or a handle and a suffix. A directive at the head of a document gives the version
    or says what a handle stands for.
-/

namespace ClassAudit.Yaml

/-! ### Anchors and aliases -/

def readName : Reader String := fun p => do
  let (name, p) ← Place.span isWordChar p
  let bounded := endsWord p.rest ||
    p.rest.head?.any fun c => "?:,]\x7d%@`".toList.contains c
  if name.isEmpty || !bounded then
    p.fail "did not find expected alphabetic or numeric character"
  return (String.ofList name, p)

/-! ### Tags -/

/-- A character that may stand in the text of a tag, the percent sign of an escape among them. -/
def isTagChar (c : Char) : Bool :=
  isWordChar c || ";/?:@&=+$.,!~*'()[]%".toList.contains c

def readOctet : Reader UInt8 := fun p => do
  let p ← p.need 3
  match p.rest with
  | '%' :: a :: b :: _ =>
    match Text.hexNumber? [a, b] with
    | some n => return (.ofNat n, p.skip 3)
    | none => p.fail "did not find URI escaped octet"
  | _ => p.fail "did not find URI escaped octet"

def readTrailingOctets : Nat → Reader (List UInt8)
  | 0, p => .ok ([], p)
  | n + 1, p => do
    let (octet, p) ← readOctet p
    if octet / 0x40 ≠ 2 then p.fail "found an incorrect trailing UTF-8 octet"
    let (octets, p) ← readTrailingOctets n p
    return (octet :: octets, p)

/-- A character written by its escaped bytes. Bytes that are no character, though they look like
    one, count as stray bytes. -/
def readEscapedChar : Reader (List Char) := fun p => do
  let (first, after) ← readOctet p
  match Encoding.sizeOfFirst? first with
  | none => p.fail "found an incorrect leading UTF-8 octet"
  | some size =>
    let (octets, after) ← readTrailingOctets (size - 1) after
    return ((Text.symbols (first :: octets)).map Text.Symbol.shown, after)

def readTagText (head : List Char) : Reader (List Char) := fun p =>
  go (p.left + 1) head.reverse p
where
  go : Nat → List Char → Reader (List Char)
    | 0, done, p => .ok (done.reverse, p)
    | fuel + 1, done, p => do
      let p ← p.need 1
      match p.rest with
      | '%' :: _ =>
        let (cs, p) ← readEscapedChar p
        go fuel (cs.reverse ++ done) p
      | c :: _ => if isTagChar c then go fuel (c :: done) p.next else return (done.reverse, p)
      | [] => return (done.reverse, p)

def readTagText1 : Reader (List Char) := fun p => do
  let (text, after) ← readTagText [] p
  if text.isEmpty then p.fail "did not find expected tag URI"
  return (text, after)

/-- An exclamation mark, a word, and a second exclamation mark if there is one, which is told. -/
def readTagHandle : Reader (List Char × Bool) := fun p => do
  let (word, p) ← Place.span isWordChar p.next
  if p.rest.head? == some '!' then return (('!' :: word ++ ['!'], true), p.next)
  else return (('!' :: word, false), p)

/-- The tag at an exclamation mark, as handle and suffix. The handle is empty if the suffix is the
    whole tag. -/
def readTag : Reader (String × String) := fun p => do
  let p ← p.need 2
  let (handle, suffix, p) ←
    match p.rest with
    | '!' :: '<' :: _ => do
      let (text, p) ← readTagText1 (p.skip 2)
      if p.rest.head? == some '>' then pure ([], text, p.next)
      else p.fail "did not find the expected '>'"
    | _ => do
      let ((handle, closed), p) ← readTagHandle p
      if closed then
        let (text, p) ← readTagText1 p
        pure (handle, text, p)
      else
        let (text, p) ← readTagText handle.tail p
        pure (if text.isEmpty then ([], ['!'], p) else (['!'], text, p))
  let p ← p.need 1
  if endsWord p.rest then return ((String.ofList handle, String.ofList suffix), p)
  p.fail "did not find expected whitespace or line break"

/-! ### Directives -/

/-- A number of a version, of at most two digits. -/
def readVersionNumber : Reader Nat := fun p => do
  let (digits, after) ← Place.span Char.isDigit p
  if digits.isEmpty || 2 < digits.length then p.fail "did not find expected version number"
  return (digits.foldl (fun n d => 10 * n + (d.toNat - '0'.toNat)) 0, after)

def readVersion : Reader TokenKind := fun p => do
  let (major, p) ← readVersionNumber (← p.skipBlanks)
  if p.rest.head? != some '.' then p.fail "did not find expected digit or '.' character"
  let (minor, p) ← readVersionNumber p.next
  return (.versionDirective major minor, p)

def readHandle : Reader TokenKind := fun p => do
  let p ← p.skipBlanks
  if p.rest.head? != some '!' then p.fail "did not find expected '!'"
  let ((handle, closed), p) ← readTagHandle p
  if !closed && 1 < handle.length then p.fail "did not find expected '!'"
  let p ← p.need 1
  if !p.rest.head?.any isBlank then p.fail "did not find expected whitespace"
  let (text, p) ← readTagText1 (← p.skipBlanks)
  let p ← p.need 1
  if !endsWord p.rest then p.fail "did not find expected whitespace or line break"
  return (.tagDirective (String.ofList handle) (String.ofList text), p)

/-- The directive at a percent sign, with its whole line. -/
def readDirective : Reader TokenKind := fun p => do
  let (name, p) ← Place.span isWordChar p.next
  if name.isEmpty || !endsWord p.rest then p.fail "could not find expected directive name"
  let (kind, p) ←
    match String.ofList name with
    | "YAML" => readVersion p
    | "TAG" => readHandle p
    | _ => p.fail "found unknown directive name"
  let p ← p.skipBlanks
  let p ← if p.rest.head? == some '#' then p.skipToBreak else pure p
  if endsLine p.rest then return (kind, ← p.skipBreak)
  p.fail "did not find expected comment or line break"

end ClassAudit.Yaml
