/-! # Base 64

    Four characters of the alphabet stand for three bytes. The last group may be shorter and is
    then filled with equality signs. Line breaks between the characters are skipped.
-/

namespace ClassAudit.Text

def base64Value? (c : Char) : Option Nat :=
  if 'A' ≤ c ∧ c ≤ 'Z' then some (c.toNat - 'A'.toNat)
  else if 'a' ≤ c ∧ c ≤ 'z' then some (c.toNat - 'a'.toNat + 26)
  else if '0' ≤ c ∧ c ≤ '9' then some (c.toNat - '0'.toNat + 52)
  else if c = '+' then some 62
  else if c = '/' then some 63
  else none

def base64Bytes? : List Char → Option (List UInt8)
  | [] => some []
  | [a, b, '=', '='] => do
    let n := 0x40 * (← base64Value? a) + (← base64Value? b)
    return [.ofNat (n / 0x10)]
  | [a, b, c, '='] => do
    let n := 0x1000 * (← base64Value? a) + 0x40 * (← base64Value? b) + (← base64Value? c)
    return [.ofNat (n / 0x400), .ofNat (n / 4)]
  | a :: b :: c :: d :: rest => do
    let n := 0x40000 * (← base64Value? a) + 0x1000 * (← base64Value? b) +
      0x40 * (← base64Value? c) + (← base64Value? d)
    return .ofNat (n / 0x10000) :: .ofNat (n / 0x100) :: .ofNat n :: (← base64Bytes? rest)
  | _ => none

def base64? (s : String) : Option (List UInt8) :=
  base64Bytes? (s.toList.filter fun c => c != '\n' && c != '\r')

def base64Char (n : Nat) : Char :=
  alphabet.toList[n % 64]?.getD '='
where
  alphabet : String := "ABCDEFGHIJKLMNOPQRSTUVWXYZabcdefghijklmnopqrstuvwxyz0123456789+/"

def toBase64 : List UInt8 → List Char
  | [] => []
  | [a] =>
    let n := 0x10 * a.toNat
    [base64Char (n / 0x40), base64Char n, '=', '=']
  | [a, b] =>
    let n := 4 * (0x100 * a.toNat + b.toNat)
    [base64Char (n / 0x1000), base64Char (n / 0x40), base64Char n, '=']
  | a :: b :: c :: rest =>
    let n := 0x10000 * a.toNat + 0x100 * b.toNat + c.toNat
    base64Char (n / 0x40000) :: base64Char (n / 0x1000) :: base64Char (n / 0x40) ::
      base64Char n :: toBase64 rest

end ClassAudit.Text
