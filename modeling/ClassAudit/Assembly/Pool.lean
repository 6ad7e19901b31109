/-! # Building a constant pool

    An assembler asks a pool for the slots of its constants. A constant that was asked for before
    keeps its slot; a new one gets the next free slot, and a constant of eight bytes takes two.
-/

namespace ClassAudit.Assembly

/-! ### Bytes of numbers -/

def byte (v : Int) : UInt8 :=
  .ofNat (v % 256).toNat

/-- The low two bytes of a number, most significant first. -/
def u2 (v : Int) : List UInt8 :=
  [byte (v / 256), byte v]

/-- The low four bytes of a number, most significant first. -/
def u4 (v : Int) : List UInt8 :=
  u2 (v / 65536) ++ u2 v

/-- The low eight bytes of a number, most significant first. -/
def u8 (v : Int) : List UInt8 :=
  u4 (v / 4294967296) ++ u4 v

/-! ### Entries -/

inductive MemberKind where
  | field
  | method
  | interfaceMethod
  deriving DecidableEq

def MemberKind.tag : MemberKind → UInt8
  | field => 9
  | method => 10
  | interfaceMethod => 11

/-- A constant to be written. Entries refer to others by slot. -/
inductive Entry where
  | utf8 (text : String)
  | integer (value : Int)
  | long (value : Int)
  | classInfo (name : Nat)
  | string (text : Nat)
  | methodType (descriptor : Nat)
  | nameAndType (name descriptor : Nat)
  | member (kind : MemberKind) (owner nameAndType : Nat)
  | invokeDynamic (nameAndType : Nat)
  deriving DecidableEq

namespace Entry

def slots : Entry → Nat
  | long _ => 2
  | _ => 1

/-- The bytes of an entry. A text is written in plain UTF-8. -/
def bytes : Entry → List UInt8
  | utf8 text => 1 :: u2 text.utf8ByteSize ++ text.toByteArray.toList
  | integer value => 3 :: u4 value
  | long value => 5 :: u8 value
  | classInfo name => 7 :: u2 name
  | string text => 8 :: u2 text
  | methodType descriptor => 16 :: u2 descriptor
  | nameAndType name descriptor => 12 :: u2 name ++ u2 descriptor
  | member kind owner signature => kind.tag :: u2 owner ++ u2 signature
  | invokeDynamic signature => 18 :: u2 0 ++ u2 signature

end Entry

/-! ### Pools -/

structure Pool where
  /-- The entries with their slots, latest first. -/
  entries : List (Entry × Nat)
  next : Nat

namespace Pool

/-- The pool without entries. Slot 0 is never used. -/
def empty : Pool :=
  ⟨[], 1⟩

def bytes (p : Pool) : List UInt8 :=
  p.entries.reverse.flatMap fun (entry, _) => entry.bytes

end Pool

/-- A computation that asks a pool for slots. -/
abbrev Assembler := StateM Pool

namespace Assembler

def slot (entry : Entry) : Assembler Nat := fun p =>
  match p.entries.lookup entry with
  | some slot => (slot, p)
  | none => (p.next, ⟨(entry, p.next) :: p.entries, p.next + entry.slots⟩)

def utf8 (text : String) : Assembler Nat :=
  slot (.utf8 text)

def integer (value : Int) : Assembler Nat :=
  slot (.integer value)

def long (value : Int) : Assembler Nat :=
  slot (.long value)

def classInfo (name : String) : Assembler Nat := do
  slot (.classInfo (← utf8 name))

def string (text : String) : Assembler Nat := do
  slot (.string (← utf8 text))

def methodType (descriptor : String) : Assembler Nat := do
  slot (.methodType (← utf8 descriptor))

def nameAndType (name descriptor : String) : Assembler Nat := do
  slot (.nameAndType (← utf8 name) (← utf8 descriptor))

def member (kind : MemberKind) (owner name descriptor : String) : Assembler Nat := do
  slot (.member kind (← classInfo owner) (← nameAndType name descriptor))

def invokeDynamic (name descriptor : String) : Assembler Nat := do
  slot (.invokeDynamic (← nameAndType name descriptor))

def each {α : Type} (write : α → Assembler (List UInt8)) : List α → Assembler (List UInt8)
  | [] => return []
  | a :: rest => return (← write a) ++ (← each write rest)

def table {α : Type} (write : α → Assembler (List UInt8)) (xs : List α) :
    Assembler (List UInt8) :=
  return u2 xs.length ++ (← each write xs)

/-- The bytes of an attribute table. The bodies are assembled before the names get their
    slots. -/
def attributes (attrs : List (String × List UInt8)) : Assembler (List UInt8) :=
  table (fun (name, body) => return u2 (← utf8 name) ++ u4 body.length ++ body) attrs

end Assembler

end ClassAudit.Assembly
