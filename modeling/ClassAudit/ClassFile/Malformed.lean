import ClassAudit.ClassFile.Tag
import ClassAudit.Text.Quoted

/-! # Malformed class files

    Why a byte string is not a class file. A `Malformed` value names the cause and the parts of
    the file around it, from the outside in; `Malformed.message` is its text.
-/

namespace ClassAudit

inductive MalformedCause where
  /-- Fewer than `need` bytes are left. The offset counts from the start of the file, or of the
      innermost attribute body or code array. -/
  | endOfData (offset need left : Nat)
  | badMagic (found : Nat)
  | emptyPool
  | badConstantTag (tag index : Nat)
  /-- A constant of two slots starts in the last slot. -/
  | poolOverflow (count : Nat)
  | indexOutOfRange (index : Nat)
  | wrongTag (index : Nat) (found : Tag) (wanted : List Tag)
  | nulByte
  | truncatedSequence
  | badLeadByte (byte : UInt8)
  | trailingBytes (count : Nat)
  | unknownOpcode (byte : UInt8) (pc : Nat)
  | switchBounds (low high : Int)
  | switchPairs (count : Int)
  | badElementTag (byte : UInt8)

inductive FilePart where
  | constant (index : Nat)
  | thisClass
  | superClass
  | interfaces
  | fieldHeader
  | field (name : String)
  | methodHeader
  | method (name descriptor : String)
  | attributeName
  | attributeBody (name : String)
  | parameter (index : Nat)
  | exceptionTable
  | instruction (mnemonic : String) (pc : Nat)

/-- Why a byte string is not a class file, and in which part of it. -/
structure Malformed where
  /-- The parts around the fault, outermost first. -/
  parts : List FilePart
  cause : MalformedCause

def MalformedCause.message : MalformedCause → String
  | endOfData offset need left =>
    s!"unexpected end of data at offset {offset} (need {need} bytes, have {left})"
  | badMagic found => "bad magic 0x" ++ Text.hex 8 found
  | emptyPool => "constant pool count is zero"
  | badConstantTag tag index => s!"invalid constant pool tag {tag} at index {index}"
  | poolOverflow count => s!"constant pool overflows its count {count}"
  | indexOutOfRange index => s!"constant pool index {index} out of range"
  | wrongTag index found wanted =>
    let tags := " ".intercalate (wanted.map fun tag => toString tag.toNat)
    s!"constant pool index {index} has tag {found.toNat}, want [" ++ tags ++ "]"
  | nulByte => "NUL byte in modified UTF-8 string"
  | truncatedSequence => "truncated modified UTF-8 sequence"
  | badLeadByte byte => "invalid modified UTF-8 lead byte 0x" ++ Text.hex 2 byte.toNat
  | trailingBytes count => s!"{count} trailing bytes after class attributes"
  | unknownOpcode byte pc => "unknown opcode 0x" ++ Text.hex 2 byte.toNat ++ s!" at pc {pc}"
  | switchBounds low high => s!"tableswitch high {high} < low {low}"
  | switchPairs count => s!"lookupswitch with {count} pairs"
  | badElementTag byte => "invalid element value tag " ++ Text.quoteByte byte

def FilePart.label : FilePart → String
  | constant index => s!"constant {index}: "
  | thisClass => "this_class: "
  | superClass => "super_class: "
  | interfaces => "interfaces: "
  | fieldHeader => "field: "
  | field name => "field " ++ name ++ ": "
  | methodHeader => "method: "
  | method name descriptor => "method " ++ name ++ descriptor ++ ": "
  | attributeName => "attribute name: "
  | attributeBody name => name ++ " attribute: "
  | parameter index => s!"parameter {index}: "
  | exceptionTable => "exception table: "
  | instruction mnemonic pc => mnemonic ++ s!" at pc {pc}: "

namespace Malformed

/-- The text of a fault: its parts from the outside in, then what is wrong. -/
def message (e : Malformed) : String :=
  String.join (e.parts.map FilePart.label) ++ "malformed class file: " ++ e.cause.message

def ofCause (cause : MalformedCause) : Malformed :=
  ⟨[], cause⟩

def inside (part : FilePart) (e : Malformed) : Malformed :=
  ⟨part :: e.parts, e.cause⟩

end Malformed

def FilePart.locate {α : Type} (part : FilePart) (r : Except Malformed α) : Except Malformed α :=
  r.mapError (Malformed.inside part)

end ClassAudit
