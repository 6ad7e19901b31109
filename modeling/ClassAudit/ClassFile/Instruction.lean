import ClassAudit.ClassFile.ConstantPool
import ClassAudit.ClassFile.Opcode

/-! # Instructions

    An instruction is an opcode at an offset of a code array, with what its operand names. The
    instructions of a code array lie side by side from its first byte to its last.
-/

namespace ClassAudit

inductive Operand where
  | nothing
  | type (name : String)
  | member (owner name descriptor : String)
  | callSite (name descriptor : String)
  | methodType (descriptor : String)
  | arrayType (name : String) (dims : Nat)

namespace Operand

/-- The class or array type of an operand, empty if it has none. -/
def typeName : Operand → String
  | type name => name
  | arrayType name _ => name
  | _ => ""

/-- The owner of a member, empty for other operands. -/
def owner : Operand → String
  | member owner _ _ => owner
  | _ => ""

/-- The name of a member or call site, empty for other operands. -/
def name : Operand → String
  | member _ name _ => name
  | callSite name _ => name
  | _ => ""

/-- The descriptor of an operand, empty if it has none. -/
def descriptor : Operand → String
  | member _ _ descriptor => descriptor
  | callSite _ descriptor => descriptor
  | methodType descriptor => descriptor
  | _ => ""

def dims : Operand → Nat
  | arrayType _ dims => dims
  | _ => 0

end Operand

structure Instruction where
  offset : Nat
  opcode : Opcode
  operand : Operand

namespace Instruction

/-- The number of bytes between the opcode of a switch at `pc` and its first operand, which is
    aligned to a multiple of four. -/
def switchPadding (pc : Nat) : Nat :=
  3 - pc % 4

/-- The kinds of constants that can be loaded. -/
def loadable : List Tag :=
  [.integer, .float, .long, .double, .string, .classInfo, .methodType, .methodHandle, .dynamic]

/-- The operand that loading a constant shows: the name of a class and the descriptor of a method
    type are looked up, all other constants count as nothing. -/
def loadedOperand (pool : ConstantPool) (index : Nat) : Except Malformed Operand := do
  let c ← pool.lookup loadable (fun c => if c.tag ∈ loadable then some c else none) index
  match c with
  | .classInfo name => return .type (← pool.utf8 name)
  | .methodType descriptor => return .methodType (← pool.utf8 descriptor)
  | _ => return .nothing

def readOperand (pool : ConstantPool) (pc : Nat) : OperandShape → Reader Operand
  | .plain size => do
    Reader.skip size
    return .nothing
  | .typeRef => return .type (← pool.className (← Reader.u2))
  | .fieldRef => do
    let field ← pool.fieldRef (← Reader.u2)
    return .member field.owner field.name field.descriptor
  | .methodRef padding => do
    let method ← pool.methodRef (← Reader.u2)
    Reader.skip padding
    return .member method.owner method.name method.descriptor
  | .callSite => do
    let (name, descriptor) ← pool.callSite (← Reader.u2)
    Reader.skip 2
    return .callSite name descriptor
  | .loadConstant => do loadedOperand pool (← Reader.u1).toNat
  | .loadConstantWide => do loadedOperand pool (← Reader.u2)
  | .arrayType => do
    let name ← pool.className (← Reader.u2)
    return .arrayType name (← Reader.u1).toNat
  | .tableSwitch => do
    Reader.skip (switchPadding pc)
    Reader.skip 4
    let low ← Reader.s4
    let high ← Reader.s4
    if high < low then Reader.fail (.switchBounds low high)
    Reader.skip ((high - low + 1).toNat * 4)
    return .nothing
  | .lookupSwitch => do
    Reader.skip (switchPadding pc)
    Reader.skip 4
    let pairs ← Reader.s4
    if pairs < 0 then Reader.fail (.switchPairs pairs)
    Reader.skip (pairs.toNat * 8)
    return .nothing
  | .wide => do
    let op : Opcode := ⟨← Reader.u1⟩
    Reader.skip (if op = .iinc then 4 else 2)
    return .nothing

def read (pool : ConstantPool) : Reader Instruction := do
  let pc ← Reader.offset
  let op : Opcode := ⟨← Reader.u1⟩
  match op.shape? with
  | none => Reader.fail (.unknownOpcode op.code pc)
  | some shape =>
    let operand ← Reader.inside (.instruction op.mnemonic pc) (readOperand pool pc shape)
    return ⟨pc, op, operand⟩

def readAll (pool : ConstantPool) (code : List UInt8) : Except Malformed (List Instruction) :=
  (Reader.untilEnd (read pool)).on code

end Instruction

end ClassAudit
