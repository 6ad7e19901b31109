import ClassAudit.Text.Hex
import ClassAudit.Yaml.Scalar.Plain

/-! # Quoted scalars

    In single quotes a doubled quote stands for itself. In double quotes a backslash starts an
    escape, and a backslash at the end of a line joins it with the next.
-/

namespace ClassAudit.Yaml

/-- The characters that a letter after a backslash stands for. -/
def escapedChar? : Char → Option Char
  | '0' => some '\x00'
  | 'a' => some '\x07'
  | 'b' => some '\x08'
  | 't' => some '\t'
  | '\t' => some '\t'
  | 'n' => some '\n'
  | 'v' => some '\x0b'
  | 'f' => some '\x0c'
  | 'r' => some '\r'
  | 'e' => some '\x1b'
  | ' ' => some ' '
  | '"' => some '"'
  | '\'' => some '\''
  | '\\' => some '\\'
  | 'N' => some '\u0085'
  | '_' => some '\u00a0'
  | 'L' => some '\u2028'
  | 'P' => some '\u2029'
  | _ => none

/-- The number of hexadecimal digits after a letter that names a code point. -/
def codeLength? : Char → Option Nat
  | 'x' => some 2
  | 'u' => some 4
  | 'U' => some 8
  | _ => none

def readEscape : Reader Char := fun p =>
  match p.rest with
  | [] => p.fail "found unknown escape character"
  | c :: _ =>
    match escapedChar? c, codeLength? c with
    | some d, _ => .ok (d, p.next)
    | none, none => p.fail "found unknown escape character"
    | none, some n => do
      let p ← p.next.need n
      match if p.left < n then none else Text.hexNumber? (p.rest.take n) with
      | none => p.fail "did not find expected hexdecimal number"
      | some code =>
        if (0xd800 ≤ code && code ≤ 0xdfff) || 0x10ffff < code then
          p.fail "found invalid Unicode character escape code"
        else return (Char.ofNat code, p.skip n)

/-- The characters of a quoted scalar up to white space or the closing quote, from the last one, and
    the spacing that an escaped line break behind them starts. -/
def readQuotedWord (double : Bool) : Reader (List Char × Spacing) := fun p =>
  go (p.left + 1) [] p
where
  go : Nat → List Char → Reader (List Char × Spacing)
    | 0, done, p => .ok ((done, .none), p)
    | fuel + 1, done, p =>
      match p.rest with
      | [] => .ok ((done, .none), p)
      | c :: cs =>
        if isBlank c || isBreak c then .ok ((done, .none), p)
        else if double && c == '\\' then
          if !cs.isEmpty && endsLine cs then do
            let p ← (← p.need 3).next.skipBreak
            return ((done, .escaped), p)
          else do
            let (d, p) ← readEscape p.next
            go fuel (d :: done) (← p.need 2)
        else if !double && c == '\'' && cs.head? == some '\'' then do
          go fuel ('\'' :: done) (← (p.skip 2).need 2)
        else if c == (if double then '"' else '\'') then .ok ((done, .none), p)
        else do go fuel (c :: done) (← p.next.need 2)

/-- The scalar behind an opening quote: its text, and the place after the closing quote. -/
def readQuoted (double : Bool) : Reader String := fun p =>
  go (p.left + 1) [] p
where
  go : Nat → List Char → Reader String
    | 0, _, p => p.fail "found unexpected end of stream"
    | fuel + 1, done, p => do
      let p ← p.need 4
      if p.atDocumentMark then p.fail "found unexpected document indicator"
      if p.rest.isEmpty then p.fail "found unexpected end of stream"
      let ((word, spacing), p) ← readQuotedWord double p
      let done := word ++ done
      let p ← p.need 1
      if p.rest.head? == some (if double then '"' else '\'') then
        return (String.ofList (spacing.text.reverse ++ done).reverse, p.next)
      let (spacing, p) ← readSpacing none spacing p
      go fuel (spacing.text.reverse ++ done) p

end ClassAudit.Yaml
