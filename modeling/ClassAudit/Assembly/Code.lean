import ClassAudit.Assembly.Pool

/-! # Assembling code

    A method body is a list of items: instructions, which take up space, and rows of the line,
    exception and variable tables, which do not. A row that needs an offset takes that of the next
    instruction.
-/

namespace ClassAudit.Assembly

inductive CodeItem where
  | plain (opcode : UInt8) (operands : List UInt8)
  | type (opcode : UInt8) (name : String)
  | field (opcode : UInt8) (owner name descriptor : String)
  | invoke (opcode : UInt8) (owner name descriptor : String)
  | invokeDynamic (name descriptor : String)
  | loadClass (name : String)
  | loadString (value : String)
  | loadLong (value : Int)
  | loadMethodType (descriptor : String)
  | newArray (descriptor : String) (dims : UInt8)
  | tableSwitch (low high : Int)
  | lookupSwitch (keys : List Int)
  | line (number : Int)
  /-- A row of the exception table; an empty type catches everything. -/
  | catchBlock (startPc endPc handlerPc : Int) (type : String)
  /-- A local variable of the whole body; a generic type that is not empty is recorded too. -/
  | localVariable (name descriptor signature : String) (index : Int)

namespace CodeItem

def invokeInterface : UInt8 := 0xb9

/-- The number of filling bytes after the opcode of a switch at `pc`. -/
def padding (pc : Int) : Nat :=
  ((4 - (pc + 1).tmod 4).tmod 4).toNat

/-- The number of targets of a table switch, as a signed word of four bytes. -/
def tableCount (low high : Int) : Int :=
  (high - low + 1).bmod 0x100000000

def size (pc : Int) : CodeItem → Int
  | plain _ operands => 1 + operands.length
  | type _ _ => 3
  | field _ _ _ _ => 3
  | invoke opcode _ _ _ => if opcode = invokeInterface then 5 else 3
  | invokeDynamic _ _ => 5
  | loadClass _ => 3
  | loadString _ => 2
  | loadLong _ => 3
  | loadMethodType _ => 3
  | newArray _ _ => 4
  | tableSwitch low high => 1 + padding pc + 12 + 4 * tableCount low high
  | lookupSwitch keys => 1 + padding pc + 8 + 8 * keys.length
  | line _ => 0
  | catchBlock _ _ _ _ => 0
  | localVariable _ _ _ _ => 0

/-- The bytes of an item at `pc`. All targets of a switch are the next instruction. -/
def write (pc : Int) (item : CodeItem) : Assembler (List UInt8) :=
  match item with
  | plain opcode operands => return opcode :: operands
  | type opcode name => return opcode :: u2 (← Assembler.classInfo name)
  | field opcode owner name descriptor =>
    return opcode :: u2 (← Assembler.member .field owner name descriptor)
  | invoke opcode owner name descriptor =>
    if opcode = invokeInterface then
      return opcode :: u2 (← Assembler.member .interfaceMethod owner name descriptor) ++ [1, 0]
    else return opcode :: u2 (← Assembler.member .method owner name descriptor)
  | invokeDynamic name descriptor =>
    return 0xba :: u2 (← Assembler.invokeDynamic name descriptor) ++ u2 0
  | loadClass name => return 0x13 :: u2 (← Assembler.classInfo name)
  | loadString value => return [0x12, byte (← Assembler.string value)]
  | loadLong value => return 0x14 :: u2 (← Assembler.long value)
  | loadMethodType descriptor => return 0x13 :: u2 (← Assembler.methodType descriptor)
  | newArray descriptor dims => return 0xc5 :: u2 (← Assembler.classInfo descriptor) ++ [dims]
  | tableSwitch low high =>
    let target := u4 (item.size pc)
    return 0xaa :: List.replicate (padding pc) 0 ++ target ++ u4 low ++ u4 high ++
      (List.replicate (tableCount low high).toNat target).flatten
  | lookupSwitch keys =>
    let target := u4 (item.size pc)
    return 0xab :: List.replicate (padding pc) 0 ++ target ++ u4 keys.length ++
      keys.flatMap fun key => u4 key ++ target
  | line _ => return []
  | catchBlock _ _ _ _ => return []
  | localVariable _ _ _ _ => return []

end CodeItem

abbrev Code := List CodeItem

namespace Code

def placed (pc : Int) : Code → List (Int × CodeItem)
  | [] => []
  | item :: rest => (pc, item) :: placed (pc + item.size pc) rest

def endPc (code : Code) : Int :=
  code.foldl (fun pc item => pc + item.size pc) 0

def lineRows (code : Code) : List (Int × Int) :=
  (placed 0 code).filterMap fun
    | (pc, .line number) => some (pc, number)
    | _ => none

structure CatchRow where
  startPc : Int
  endPc : Int
  handlerPc : Int
  type : String

def catchRows (code : Code) : List CatchRow :=
  code.filterMap fun
    | .catchBlock startPc endPc handlerPc type => some ⟨startPc, endPc, handlerPc, type⟩
    | _ => none

structure LocalRow where
  name : String
  descriptor : String
  signature : String
  index : Int

def localRows (code : Code) : List LocalRow :=
  code.filterMap fun
    | .localVariable name descriptor signature index => some ⟨name, descriptor, signature, index⟩
    | _ => none

def CatchRow.write (row : CatchRow) : Assembler (List UInt8) := do
  let type ← if row.type = "" then pure 0 else Assembler.classInfo row.type
  return u2 row.startPc ++ u2 row.endPc ++ u2 row.handlerPc ++ u2 type

/-- The bytes of a row of a variable table, for a variable of the given type that lives through
    `length` bytes of code. -/
def LocalRow.write (length : Nat) (row : LocalRow) (type : String) : Assembler (List UInt8) := do
  let name ← Assembler.utf8 row.name
  let type ← Assembler.utf8 type
  return u2 0 ++ u2 length ++ u2 name ++ u2 type ++ u2 row.index

def lineAttribute (code : Code) : List (String × List UInt8) :=
  match code.lineRows with
  | [] => []
  | rows => [("LineNumberTable", u2 rows.length ++ rows.flatMap fun (pc, n) => u2 pc ++ u2 n)]

def localAttributes (length : Nat) (code : Code) : Assembler (List (String × List UInt8)) :=
  match code.localRows with
  | [] => return []
  | rows => do
    let table ← Assembler.table (fun row => row.write length row.descriptor) rows
    match rows.filter (·.signature ≠ "") with
    | [] => return [("LocalVariableTable", table)]
    | typed =>
      let types ← Assembler.table (fun row => row.write length row.signature) typed
      return [("LocalVariableTable", table), ("LocalVariableTypeTable", types)]

/-- The body of a code attribute. Both size limits are 8. -/
def write (code : Code) : Assembler (List UInt8) := do
  let bytecode ← Assembler.each (fun (pc, item) => CodeItem.write pc item) (placed 0 code)
  let catches ← Assembler.table CatchRow.write code.catchRows
  let locals ← code.localAttributes bytecode.length
  let attributes ← Assembler.attributes (code.lineAttribute ++ locals)
  return u2 8 ++ u2 8 ++ u4 bytecode.length ++ bytecode ++ catches ++ attributes

end Code

end ClassAudit.Assembly
