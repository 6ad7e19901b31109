import ClassAudit.Number.Double
import ClassAudit.Text.ByteString
import ClassAudit.Text.Hex
import ClassAudit.Timestamp

/-! # What plain scalars stand for

    A plain scalar without a tag is a null, a truth value, a number, a point in time or a text,
    by its form. Numbers may have underscores in them; a leading zero makes them octal.
-/

namespace ClassAudit.Yaml

inductive FloatValue
  | finite (x : Double)
  | infinite (negative : Bool)
  | nan

inductive ScalarValue
  | null
  | bool (b : Bool)
  | int (n : Int)
  | float (x : FloatValue)
  | time (t : Timestamp)
  | text (s : ByteString)

def ScalarValue.tag : ScalarValue → String
  | .null => "!!null"
  | .bool _ => "!!bool"
  | .int _ => "!!int"
  | .float _ => "!!float"
  | .time _ => "!!timestamp"
  | .text _ => "!!str"

namespace FloatValue

/-- Whether two numbers are equal. What is no number equals nothing. -/
def equals : FloatValue → FloatValue → Bool
  | .finite x, .finite y => x.equals y
  | .infinite x, .infinite y => x == y
  | _, _ => false

end FloatValue

/-- Whether two values are equal as keys. Points in time are so only in universal time. -/
def ScalarValue.equals : ScalarValue → ScalarValue → Bool
  | .null, .null => true
  | .bool x, .bool y => x == y
  | .int x, .int y => x == y
  | .float x, .float y => x.equals y
  | .time x, .time y => x == y && x.offset == 0
  | .text x, .text y => x == y
  | _, _ => false

/-! ### Words -/

def wordValue? : String → Option ScalarValue
  | "true" | "True" | "TRUE" => some (.bool true)
  | "false" | "False" | "FALSE" => some (.bool false)
  | "" | "~" | "null" | "Null" | "NULL" => some .null
  | ".nan" | ".NaN" | ".NAN" => some (.float .nan)
  | ".inf" | ".Inf" | ".INF" | "+.inf" | "+.Inf" | "+.INF" => some (.float (.infinite false))
  | "-.inf" | "-.Inf" | "-.INF" => some (.float (.infinite true))
  | _ => none

/-! ### Whole numbers -/

def digitValue? (c : Char) : Option Nat :=
  if c.isDigit then some (c.toNat - '0'.toNat)
  else if 'a' ≤ c ∧ c ≤ 'z' then some (c.toNat - 'a'.toNat + 10)
  else if 'A' ≤ c ∧ c ≤ 'Z' then some (c.toNat - 'A'.toNat + 10)
  else none

def digitsValue? (base : Nat) (cs : List Char) : Option Nat :=
  cs.foldlM (fun n c => do
    let d ← digitValue? c
    if d < base then some (base * n + d) else none) 0

/-- A number without a sign. Its base shows in its first characters unless it is given. -/
def unsigned? (base : Option Nat) (cs : List Char) : Option Nat :=
  match base, cs with
  | _, [] => none
  | some b, cs => digitsValue? b cs
  | none, '0' :: rest =>
    match rest with
    | x :: y :: more =>
      if x = 'b' ∨ x = 'B' then digitsValue? 2 (y :: more)
      else if x = 'o' ∨ x = 'O' then digitsValue? 8 (y :: more)
      else if x = 'x' ∨ x = 'X' then digitsValue? 16 (y :: more)
      else digitsValue? 8 rest
    | _ => digitsValue? 8 rest
  | none, cs => digitsValue? 10 cs

/-- A number of 64 bits with a sign, or without one if it is positive. -/
def integer? (base : Option Nat) (cs : List Char) : Option Int := do
  let (signed, negative, rest) := match cs with
    | '-' :: rest => (true, true, rest)
    | '+' :: rest => (true, false, rest)
    | _ => (false, false, cs)
  let n ← unsigned? base rest
  if negative then if n ≤ 0x8000000000000000 then some (-(n : Int)) else none
  else if n < (if signed then 0x8000000000000000 else 0x10000000000000000) then some n
  else none

/-- A number with a base that is shown by a lower-case letter, where a sign may stand behind
    it. -/
def lateSigned? (cs : List Char) : Option Int :=
  match cs with
  | '0' :: 'b' :: rest => integer? (some 2) rest
  | '-' :: '0' :: 'b' :: rest => integer? (some 2) ('-' :: rest)
  | '0' :: 'o' :: rest => integer? (some 8) rest
  | '-' :: '0' :: 'o' :: rest => integer? (some 8) ('-' :: rest)
  | _ => none

/-! ### Decimal fractions -/

def decimalDigits (cs : List Char) : Nat :=
  cs.foldl (fun n c => 10 * n + (c.toNat - '0'.toNat)) 0

def exponent? : List Char → Option Int
  | [] => some 0
  | e :: rest =>
    if e = 'e' ∨ e = 'E' then
      let (negative, ds) := match rest with
        | '-' :: ds => (true, ds)
        | '+' :: ds => (false, ds)
        | ds => (false, ds)
      if ds.isEmpty || !ds.all Char.isDigit then none
      else some (if negative then -(decimalDigits ds : Int) else decimalDigits ds)
    else none

/-- A decimal fraction: digits with at most one point among them, and an exponent. -/
def decimal? (cs : List Char) : Option Decimal := do
  let (negative, cs) := match cs with
    | '-' :: rest => (true, rest)
    | '+' :: rest => (false, rest)
    | _ => (false, cs)
  let whole := cs.takeWhile Char.isDigit
  let (part, rest) := match cs.dropWhile Char.isDigit with
    | '.' :: rest => (rest.takeWhile Char.isDigit, rest.dropWhile Char.isDigit)
    | rest => ([], rest)
  if whole.isEmpty && part.isEmpty then none
  else
    let exponent ← exponent? rest
    some ⟨negative, decimalDigits (whole ++ part), exponent - part.length⟩

def underscoresSeparate : Bool → List Char → Bool
  | _, [] => true
  | afterDigit, '_' :: rest => afterDigit && rest.head?.any Char.isDigit &&
      underscoresSeparate false rest
  | _, c :: rest => underscoresSeparate c.isDigit rest

/-! ### Scalars -/

def numberValue? (withTime : Bool) (s : String) : Option ScalarValue :=
  let plain := s.toList.filter (· != '_')
  (if withTime then (Timestamp.parseLiberal? s).map .time else none) <|>
    (integer? none plain).map .int <|>
    ((decimal? plain).bind Double.ofDecimal?).map (fun x => .float (.finite x)) <|>
    (lateSigned? plain).map .int

def pointValue? (s : String) : Option ScalarValue :=
  if underscoresSeparate false s.toList then
    ((decimal? (s.toList.filter (· != '_'))).bind Double.ofDecimal?).map
      (fun x => .float (.finite x))
  else none

/-- What a plain scalar stands for. Points in time are known only where they are asked for. -/
def implicitValue (withTime : Bool) (s : String) : ScalarValue :=
  match wordValue? s with
  | some v => v
  | none =>
    match s.toList with
    | [] => .null
    | c :: _ =>
      if c = '.' then (pointValue? s).getD (.text s)
      else if c.isDigit ∨ c = '+' ∨ c = '-' then (numberValue? withTime s).getD (.text s)
      else .text s

end ClassAudit.Yaml
