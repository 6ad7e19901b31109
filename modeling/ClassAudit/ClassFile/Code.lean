import ClassAudit.ClassFile.Attribute
import ClassAudit.ClassFile.Instruction
import Std.Data.HashMap
import Std.Data.HashSet

/-! # Code of a method

    The instructions of a method with its exception table, its line table and its local
    variables. Generic types of local variables stand in a table of their own, which is merged
    into the first by slot and start.
-/

namespace ClassAudit

/-- A row of the line table: from this offset on, the code belongs to a line. -/
structure LineEntry where
  pc : Nat
  line : Nat

/-- A row of the exception table. The type is empty for a handler of everything. -/
structure CatchBlock where
  startPc : Nat
  endPc : Nat
  handlerPc : Nat
  type : String

structure LocalVariable where
  name : String
  descriptor : String
  signature : String
  index : Nat
  startPc : Nat

structure Code where
  instructions : List Instruction
  lines : List LineEntry
  catches : List CatchBlock
  locals : List LocalVariable

/-! ### Local variables -/

/-- A row of a table of local variables, which gives a descriptor or a generic type. -/
structure LocalRow where
  name : String
  type : String
  index : Nat
  startPc : Nat

namespace LocalRow

/-- One row. Its length field is not kept. -/
def read (pool : ConstantPool) : Reader LocalRow := do
  let startPc ← Reader.u2
  let _ ← Reader.u2
  let name ← Reader.u2
  let type ← Reader.u2
  let index ← Reader.u2
  return ⟨← pool.utf8 name, ← pool.utf8 type, index, startPc⟩

def ofAttribute (pool : ConstantPool) (body : List UInt8) : Except Malformed (List LocalRow) :=
  (Reader.table (read pool)).on body

def key (row : LocalRow) : Nat × Nat :=
  (row.index, row.startPc)

def described (row : LocalRow) : LocalVariable :=
  ⟨row.name, row.type, "", row.index, row.startPc⟩

/-- The variable of a row that gives a generic type and has no partner. -/
def generic (row : LocalRow) : LocalVariable :=
  ⟨row.name, "", row.type, row.index, row.startPc⟩

end LocalRow

namespace LocalVariable

/-- Generic types by slot and start. -/
abbrev Signatures := Std.HashMap (Nat × Nat) String

/-- The generic types of rows. The last of several rows about one variable counts. -/
def signaturesOf (rows : List LocalRow) : Signatures :=
  rows.foldl (fun signatures row => signatures.insert row.key row.type) ∅

/-- The variables of rows that give descriptors, with their generic types, and the keys of all rows.
    The type goes to the first of several rows with one key. -/
def describe (signatures : Signatures) :
    Std.HashSet (Nat × Nat) → List LocalRow → List LocalVariable × Std.HashSet (Nat × Nat)
  | seen, [] => ([], seen)
  | seen, row :: rows =>
    let signature := if seen.contains row.key then "" else signatures.getD row.key ""
    let (described, seen) := describe signatures (seen.insert row.key) rows
    ({ row.described with signature } :: described, seen)

/-- The variables of rows that give generic types, one for each key that has not been seen. -/
def addGeneric (signatures : Signatures) :
    Std.HashSet (Nat × Nat) → List LocalRow → List LocalVariable
  | _, [] => []
  | seen, row :: rows =>
    if seen.contains row.key then addGeneric signatures seen rows
    else
      { row.generic with signature := signatures.getD row.key row.type } ::
        addGeneric signatures (seen.insert row.key) rows

/-- The variables of a table of descriptors and a table of generic types. Those that only the second
    one has come last. -/
def merge (rows types : List LocalRow) : List LocalVariable :=
  let signatures := signaturesOf types
  let (described, seen) := describe signatures ∅ rows
  described ++ addGeneric signatures seen types

end LocalVariable

/-! ### Reading code -/

namespace Code

structure Attributes where
  lines : List LineEntry
  locals : List LocalRow
  localTypes : List LocalRow

def Attributes.add (pool : ConstantPool) (seen : Attributes) (name : String)
    (body : List UInt8) : Except Malformed Attributes :=
  match name with
  | "LineNumberTable" => do
    let lines ← Reader.on (Reader.table do return LineEntry.mk (← Reader.u2) (← Reader.u2)) body
    return { seen with lines := seen.lines ++ lines }
  | "LocalVariableTable" => do
    return { seen with locals := seen.locals ++ (← LocalRow.ofAttribute pool body) }
  | "LocalVariableTypeTable" => do
    return { seen with localTypes := seen.localTypes ++ (← LocalRow.ofAttribute pool body) }
  | _ => return seen

def Attributes.localVariables (seen : Attributes) : List LocalVariable :=
  LocalVariable.merge seen.locals seen.localTypes

def readCatch (pool : ConstantPool) : Reader CatchBlock := do
  let startPc ← Reader.u2
  let endPc ← Reader.u2
  let handlerPc ← Reader.u2
  let type ← Reader.u2
  return ⟨startPc, endPc, handlerPc, ← FilePart.exceptionTable.locate (pool.optionalClassName type)⟩

/-- The code of a method. Stack and variable limits are passed over. -/
def read (pool : ConstantPool) : Reader Code := do
  Reader.skip 4
  let bytecode ← Reader.bytes (← Reader.u4)
  let instructions ← Instruction.readAll pool bytecode
  let catches ← Reader.table (readCatch pool)
  let seen ← Attribute.foldTable pool (Attributes.add pool) ⟨[], [], []⟩
  return { instructions, lines := seen.lines, catches, locals := seen.localVariables }

end Code

end ClassAudit
