import ClassAudit.Text.Utf8

/-! # The characters of a YAML text

    A text is a list of bytes in UTF-8, or in UTF-16 if it starts with the mark of one of its byte
    orders. Bytes are taken 512 at a time, together with those of a character that was cut apart
    before, and a piece of the text is decoded as a whole. A fault in a piece shows as soon as
    anything of the piece is asked for, and not before.
-/

namespace ClassAudit.Yaml

/-! ### Characters -/

def isBlank (c : Char) : Bool :=
  c == ' ' || c == '\t'

def isBreak (c : Char) : Bool :=
  c == '\n' || c == '\r' || c == '\u0085' || c == '\u2028' || c == '\u2029'

/-- A character of a word: a letter or digit of ASCII, an underscore or a dash. -/
def isWordChar (c : Char) : Bool :=
  c.isAlphanum || c == '_' || c == '-'

def isAllowed (c : Char) : Bool :=
  let n := c.toNat
  n == 0x09 || n == 0x0a || n == 0x0d || (0x20 ≤ n && n ≤ 0x7e) || n == 0x85 ||
    (0xa0 ≤ n && n ≤ 0xd7ff) || (0xe000 ≤ n && n ≤ 0xfffd) || 0x10000 ≤ n

def byteOrderMark : Char :=
  '\ufeff'

/-! ### Encodings -/

inductive Encoding
  | utf8
  /-- In units of two bytes, of which the lower one comes first or last. -/
  | utf16 (lowFirst : Bool)

inductive Head
  | char (c : Char) (size : Nat)
  /-- The first bytes of a character. -/
  | cut
  | fault

namespace Encoding

/-- The encoding of a text, and how many bytes in front say so. -/
def detect : List UInt8 → Encoding × Nat
  | 0xff :: 0xfe :: _ => (utf16 true, 2)
  | 0xfe :: 0xff :: _ => (utf16 false, 2)
  | 0xef :: 0xbb :: 0xbf :: _ => (utf8, 3)
  | _ => (utf8, 0)

/-- The number of bytes of a character in UTF-8, by the first of them. -/
def sizeOfFirst? (b : UInt8) : Option Nat :=
  if b < 0x80 then some 1
  else if b < 0xc0 then none
  else if b < 0xe0 then some 2
  else if b < 0xf0 then some 3
  else if b < 0xf8 then some 4
  else none

def unit (lowFirst : Bool) (a b : UInt8) : Nat :=
  if lowFirst then a.toNat + 0x100 * b.toNat else 0x100 * a.toNat + b.toNat

def allowed (c : Char) (size : Nat) : Head :=
  if isAllowed c then .char c size else .fault

def head (e : Encoding) (bytes : List UInt8) : Head :=
  match e with
  | utf8 =>
    match bytes.head?.bind sizeOfFirst? with
    | none => .fault
    | some size =>
      if bytes.length < size then .cut
      else
        match Text.firstChar? (bytes.take size) with
        | some (c, size) => allowed c size
        | none => .fault
  | utf16 lowFirst =>
    match bytes with
    | a :: b :: rest =>
      let high := unit lowFirst a b
      if high / 0x400 = 0x37 then .fault
      else if high / 0x400 = 0x36 then
        match rest with
        | c :: d :: _ =>
          let low := unit lowFirst c d
          if low / 0x400 = 0x37 then
            allowed (Char.ofNat (0x10000 + 0x400 * (high % 0x400) + low % 0x400)) 4
          else .fault
        | _ => .cut
      else allowed (Char.ofNat high) 2
    | _ => .cut

end Encoding

/-! ### Pieces -/

def decodePiece (e : Encoding) (bytes : List UInt8) : List Char × Option (List UInt8) :=
  go (bytes.length + 1) bytes []
where
  go : Nat → List UInt8 → List Char → List Char × Option (List UInt8)
    | 0, _, done => (done.reverse, none)
    | _, [], done => (done.reverse, some [])
    | fuel + 1, bytes, done =>
      match e.head (bytes.take 4) with
      | .char c size => go fuel (bytes.drop size) (c :: done)
      | .cut => (done.reverse, some bytes)
      | .fault => (done.reverse, none)

/-- A piece of a text: where it ends, and whether there is no fault behind it. -/
structure Piece where
  /-- The number of characters up to its end. -/
  stop : Nat
  sound : Bool

structure Source where
  chars : List Char
  pieces : List Piece

namespace Source

def pieceSize : Nat := 512

def ofBytes (bytes : List UInt8) : Source :=
  let (e, skipped) := Encoding.detect bytes
  let first := bytes.take pieceSize
  go e (bytes.length + 2) (first.drop skipped) (bytes.drop pieceSize) [] 0 []
where
  /-- The source that goes on with the bytes of a piece, when `rest` follow it. -/
  go (e : Encoding) : Nat → List UInt8 → List UInt8 → List (List Char) → Nat → List Piece → Source
    | 0, _, _, done, _, pieces => ⟨done.reverse.flatten, pieces.reverse⟩
    | fuel + 1, piece, rest, done, count, pieces =>
      let (chars, left) := decodePiece e piece
      let done := chars :: done
      let count := count + chars.length
      match left with
      | none => ⟨done.reverse.flatten, (⟨count, false⟩ :: pieces).reverse⟩
      | some left =>
        let pieces := ⟨count, true⟩ :: pieces
        if rest.isEmpty then
          ⟨done.reverse.flatten,
            (if left.isEmpty then pieces else ⟨count, false⟩ :: pieces).reverse⟩
        else
          let size := pieceSize - left.length
          go e fuel (left ++ rest.take size) (rest.drop size) done count pieces

end Source

end ClassAudit.Yaml
