/-! # UTF-8

    The bytes of a text, and the reading of bytes as text. Where bytes are not the shortest form
    of a character, each of them is read as the replacement character.
-/

namespace ClassAudit.Text

def utf8 (s : String) : List UInt8 :=
  s.toUTF8.toList

/-- What stands for a byte that belongs to no character. -/
def replacement : Char := '\ufffd'

/-- The value of the six low bits of a byte that goes on with a character. -/
def trailing? (b : UInt8) : Option Nat :=
  if 0x80 ≤ b ∧ b < 0xc0 then some (b.toNat - 0x80) else none

/-- The character at the head of a list of bytes and the number of its bytes. -/
def firstChar? : List UInt8 → Option (Char × Nat)
  | [] => none
  | a :: rest =>
    if a < 0x80 then some (Char.ofNat a.toNat, 1)
    else if a < 0xc0 then none
    else if a < 0xe0 then
      match rest.take 1 |>.mapM trailing? with
      | some [x] => check 0x80 (0x40 * (a.toNat - 0xc0) + x) 2
      | _ => none
    else if a < 0xf0 then
      match rest.take 2 |>.mapM trailing? with
      | some [x, y] => check 0x800 (0x1000 * (a.toNat - 0xe0) + 0x40 * x + y) 3
      | _ => none
    else if a < 0xf8 then
      match rest.take 3 |>.mapM trailing? with
      | some [x, y, z] =>
        check 0x10000 (0x40000 * (a.toNat - 0xf0) + 0x1000 * x + 0x40 * y + z) 4
      | _ => none
    else none
where
  /-- A character that needs as many bytes as it has. -/
  check (least code width : Nat) : Option (Char × Nat) :=
    if h : code.isValidChar then if least ≤ code then some (Char.ofNatAux code h, width) else none
    else none

def ofUtf8? (bytes : List UInt8) : Option String :=
  go (bytes.length + 1) bytes []
where
  go : Nat → List UInt8 → List Char → Option String
    | _, [], done => some (String.ofList done.reverse)
    | 0, _, _ => none
    | fuel + 1, bytes, done =>
      match firstChar? bytes with
      | some (c, n) => go fuel (bytes.drop n) (c :: done)
      | none => none

/-! ### Bytes that are no text -/

/-- What bytes are read as: characters, and bytes that belong to none. -/
inductive Symbol
  | char (c : Char)
  | stray (b : UInt8)

namespace Symbol

def shown : Symbol → Char
  | char c => c
  | stray _ => replacement

def bytes : Symbol → List UInt8
  | char c => utf8 c.toString
  | stray b => [b]

def char? : Symbol → Option Char
  | char c => some c
  | stray _ => none

def is (c : Char) : Symbol → Bool
  | char d => c == d
  | stray _ => false

end Symbol

def symbols (bytes : List UInt8) : List Symbol :=
  go (bytes.length + 1) bytes []
where
  go : Nat → List UInt8 → List Symbol → List Symbol
    | _, [], done => done.reverse
    | 0, _, done => done.reverse
    | fuel + 1, b :: bytes, done =>
      match firstChar? (b :: bytes) with
      | some (c, n) => go fuel ((b :: bytes).drop n) (.char c :: done)
      | none => go fuel bytes (.stray b :: done)

def ofUtf8Lossy (bytes : List UInt8) : String :=
  String.ofList ((symbols bytes).map Symbol.shown)

end ClassAudit.Text
