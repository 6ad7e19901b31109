import ClassAudit.ClassFile.Malformed

/-! # Reading bytes

    A `Reader` consumes bytes from the front of a cursor, or stops with a fault. Numbers are
    big-endian. The offset of a cursor only serves the texts of faults; what a reader returns
    depends on the bytes alone.
-/

namespace ClassAudit

/-- The bytes that are still to be read, and how many have been read before them. -/
structure Cursor where
  offset : Nat
  rest : List UInt8

/-- A computation that consumes bytes or finds the file malformed. -/
abbrev Reader := StateT Cursor (Except Malformed)

namespace Reader

def fail {α : Type} (cause : MalformedCause) : Reader α :=
  throw (Malformed.ofCause cause)

/-- Stop because `need` bytes are wanted and fewer are left. -/
def short {α : Type} (need : Nat) : Reader α := fun c =>
  .error (.ofCause (.endOfData c.offset need c.rest.length))

def u1 : Reader UInt8 := fun c =>
  match c.rest with
  | b :: rest => .ok (b, ⟨c.offset + 1, rest⟩)
  | [] => short 1 c

def u2 : Reader Nat := fun c =>
  match c.rest with
  | b₁ :: b₀ :: rest => .ok (b₁.toNat * 256 + b₀.toNat, ⟨c.offset + 2, rest⟩)
  | _ => short 2 c

def u4 : Reader Nat := fun c =>
  match c.rest with
  | b₃ :: b₂ :: b₁ :: b₀ :: rest =>
    .ok (((b₃.toNat * 256 + b₂.toNat) * 256 + b₁.toNat) * 256 + b₀.toNat,
      ⟨c.offset + 4, rest⟩)
  | _ => short 4 c

/-- A signed number of four bytes, in two's complement. -/
def s4 : Reader Int :=
  return Int.bmod (← u4) 0x100000000

def bytes (n : Nat) : Reader (List UInt8) := fun c =>
  let taken := c.rest.take n
  if taken.length = n then .ok (taken, ⟨c.offset + n, c.rest.drop n⟩)
  else short n c

def skip (n : Nat) : Reader Unit := do
  let _ ← bytes n

def offset : Reader Nat :=
  return (← get).offset

def remaining : Reader Nat :=
  return (← get).rest.length

def times {α : Type} (n : Nat) (p : Reader α) : Reader (List α) :=
  go n []
where
  go : Nat → List α → Reader (List α)
    | 0, done => return done.reverse
    | n + 1, done => do go n ((← p) :: done)

def table {α : Type} (p : Reader α) : Reader (List α) := do
  times (← u2) p

/-- Run a reader as often as a number of two bytes in front says, where each run goes on from what
    the runs before have led to. -/
def foldTable {σ : Type} (p : σ → Reader σ) (s : σ) : Reader σ := do
  go (← u2) s
where
  go : Nat → σ → Reader σ
    | 0, s => return s
    | n + 1, s => do go n (← p s)

/-- Run a reader until no byte is left. A reader that consumes at least one byte each time runs
    at most once per byte, so `fuel` is the number of bytes. -/
def untilEnd {α : Type} (p : Reader α) : Reader (List α) := do
  go (← remaining) []
where
  go : Nat → List α → Reader (List α)
    | 0, done => return done.reverse
    | fuel + 1, done => do
      if (← get).rest.isEmpty then return done.reverse
      else go fuel ((← p) :: done)

/-- Run a reader whose faults lie inside a part. -/
def inside {α : Type} (part : FilePart) (p : Reader α) : Reader α := fun c =>
  part.locate (p c)

/-- The result of a reader on a byte string of its own. It need not consume all of it. -/
def on {α : Type} (p : Reader α) (data : List UInt8) : Except Malformed α :=
  (p ⟨0, data⟩).map Prod.fst

end Reader

end ClassAudit
