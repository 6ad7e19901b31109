import ClassAudit.ClassFile.Malformed

/-! # Modified UTF-8

    Strings in a class file are sequences of 16-bit units, each written in one, two or three
    bytes. NUL takes two bytes, and a supplementary character is the pair of its surrogates.
    `decode` reads such a byte string, and `encode` writes one. A surrogate without its partner
    reads as the replacement character.
-/

namespace ClassAudit.ModifiedUtf8

/-! ### Bytes and units -/

def isContinuation (b : UInt8) : Bool :=
  b &&& 0xC0 == 0x80

/-- The six payload bits of a continuation byte. -/
def payload (b : UInt8) : Nat :=
  b.toNat % 64

/-- The units that a byte string writes, added to those read before in reverse. -/
def unitsFrom (done : List Nat) : List UInt8 → Except MalformedCause (List Nat)
  | [] => .ok done.reverse
  | b :: rest =>
    if b = 0 then .error .nulByte
    else if b < 0x80 then unitsFrom (b.toNat :: done) rest
    else if b &&& 0xE0 = 0xC0 then
      match rest with
      | b₁ :: rest =>
        if isContinuation b₁ then unitsFrom ((b.toNat % 32 * 64 + payload b₁) :: done) rest
        else .error .truncatedSequence
      | [] => .error .truncatedSequence
    else if b &&& 0xF0 = 0xE0 then
      match rest with
      | b₁ :: b₂ :: rest =>
        if isContinuation b₁ && isContinuation b₂ then
          unitsFrom ((b.toNat % 16 * 4096 + payload b₁ * 64 + payload b₂) :: done) rest
        else .error .truncatedSequence
      | _ => .error .truncatedSequence
    else .error (.badLeadByte b)

def units (bytes : List UInt8) : Except MalformedCause (List Nat) :=
  unitsFrom [] bytes

def unitBytes (u : Nat) : List UInt8 :=
  if 0 < u ∧ u < 0x80 then [.ofNat u]
  else if u < 0x800 then [.ofNat (0xC0 + u / 64), .ofNat (0x80 + u % 64)]
  else [.ofNat (0xE0 + u / 4096), .ofNat (0x80 + u / 64 % 64), .ofNat (0x80 + u % 64)]

/-! ### Units and characters -/

/-- Whether a unit is the first half of a surrogate pair. -/
def isHigh (u : Nat) : Bool :=
  0xD800 ≤ u && u < 0xDC00

/-- Whether a unit is the second half of a surrogate pair. -/
def isLow (u : Nat) : Bool :=
  0xDC00 ≤ u && u < 0xE000

def pairChar (high low : Nat) : Char :=
  Char.ofNat ((high - 0xD800) * 1024 + (low - 0xDC00) + 0x10000)

/-- The character of a unit that is not half of a pair. -/
def unitChar (u : Nat) : Char :=
  if isHigh u || isLow u then '\ufffd' else Char.ofNat u

def charsOfUnits : List Nat → List Char
  | [] => []
  | [u] => [unitChar u]
  | u :: v :: rest =>
    if isHigh u && isLow v then pairChar u v :: charsOfUnits rest
    else unitChar u :: charsOfUnits (v :: rest)

def charUnits (c : Char) : List Nat :=
  if c.toNat < 0x10000 then [c.toNat]
  else [0xD800 + (c.toNat - 0x10000) / 1024, 0xDC00 + (c.toNat - 0x10000) % 1024]

/-! ### Texts -/

def isPlainByte (b : UInt8) : Bool :=
  b != 0 && b < 0x80

/-- The text that a byte string writes. Most texts have plain bytes only, and these are taken as they
    stand. -/
def decode (bytes : List UInt8) : Except MalformedCause String :=
  if bytes.all isPlainByte then .ok (String.ofList (bytes.map fun b => Char.ofNat b.toNat))
  else (units bytes).map fun us => String.ofList (charsOfUnits us)

def encode (s : String) : List UInt8 :=
  s.toList.flatMap fun c => (charUnits c).flatMap unitBytes

end ClassAudit.ModifiedUtf8
