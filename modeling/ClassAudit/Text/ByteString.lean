import ClassAudit.Text.Blank
import ClassAudit.Text.SortedSet
import ClassAudit.Text.Utf8

/-! # Byte strings

    A text as it stands in a file or in the name of a file: bytes, which need not be UTF-8. Two byte
    strings are compared by their bytes, also where they are shown alike.
-/

namespace ClassAudit

/-- A text by its bytes. -/
structure ByteString where
  bytes : List UInt8

namespace ByteString

/-! ### Equality -/

def sameBytes : List UInt8 → List UInt8 → Bool
  | [], [] => true
  | a :: as, b :: bs => a == b && sameBytes as bs
  | _, _ => false

theorem sameBytes_eq_true {as bs : List UInt8} : sameBytes as bs = true ↔ as = bs := by
  induction as generalizing bs with
  | nil => cases bs <;> simp [sameBytes]
  | cons a as ih => cases bs <;> simp [sameBytes, ih]

instance : DecidableEq ByteString := fun ⟨as⟩ ⟨bs⟩ =>
  decidable_of_iff (sameBytes as bs = true) (by simp [sameBytes_eq_true])

/-! ### Texts -/

def ofString (s : String) : ByteString :=
  ⟨Text.utf8 s⟩

instance : Coe String ByteString :=
  ⟨ofString⟩

/-- How a byte string is shown, with replacement characters for bytes that belong to none. -/
def shown (s : ByteString) : String :=
  Text.ofUtf8Lossy s.bytes

def text? (s : ByteString) : Option String :=
  Text.ofUtf8? s.bytes

def empty : ByteString :=
  ⟨[]⟩

instance : Inhabited ByteString :=
  ⟨empty⟩

def isEmpty (s : ByteString) : Bool :=
  s.bytes.isEmpty

def length (s : ByteString) : Nat :=
  s.bytes.length

instance : Append ByteString :=
  ⟨fun s t => ⟨s.bytes ++ t.bytes⟩⟩

/-! ### Order -/

instance : LT ByteString :=
  ⟨fun s t => s.bytes < t.bytes⟩

instance (s t : ByteString) : Decidable (s < t) :=
  inferInstanceAs (Decidable (s.bytes < t.bytes))

instance : StrictOrder ByteString where
  irrefl s := List.lt_irrefl s.bytes
  trans h h' := List.lt_trans h h'
  connected h h' := congrArg mk (List.le_antisymm h' h)

/-! ### Parts -/

def startsWith (s start : ByteString) : Bool :=
  start.bytes.isPrefixOf s.bytes

def endsWith (s tail : ByteString) : Bool :=
  tail.bytes.isSuffixOf s.bytes

def dropStart (s start : ByteString) : ByteString :=
  if s.startsWith start then ⟨s.bytes.drop start.length⟩ else s

def splitBytes (separator : UInt8) : List UInt8 → List (List UInt8)
  | [] => [[]]
  | b :: bytes =>
    if b = separator then [] :: splitBytes separator bytes
    else
      match splitBytes separator bytes with
      | [] => [[b]]
      | part :: parts => (b :: part) :: parts

def split (separator : UInt8) (s : ByteString) : List ByteString :=
  (splitBytes separator s.bytes).map .mk

def intercalate (separator : UInt8) (parts : List ByteString) : ByteString :=
  ⟨[separator].intercalate (parts.map bytes)⟩

def trim (s : ByteString) : ByteString :=
  let isBlank (x : Text.Symbol) : Bool := x.char?.any Text.isBlank
  let inner := ((Text.symbols s.bytes).dropWhile isBlank).reverse.dropWhile isBlank
  ⟨inner.reverse.flatMap Text.Symbol.bytes⟩

end ByteString

end ClassAudit
