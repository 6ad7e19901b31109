/-! # Opcodes

    The first byte of an instruction. Its `shape` says what follows it; a byte without a shape
    starts no instruction.
-/

namespace ClassAudit

structure Opcode where
  code : UInt8
  deriving DecidableEq

inductive OperandShape where
  /-- Bytes that are passed over. -/
  | plain (size : Nat)
  | typeRef
  | fieldRef
  | methodRef (padding : Nat)
  /-- The slot of a dynamic call site and two bytes that are passed over. -/
  | callSite
  /-- The slot of a constant, in one byte. -/
  | loadConstant
  /-- The slot of a constant, in two bytes. -/
  | loadConstantWide
  | arrayType
  /-- A table of jump targets for a range of keys. -/
  | tableSwitch
  /-- A table of jump targets with their keys. -/
  | lookupSwitch
  /-- Another opcode with operands of double width. -/
  | wide

namespace Opcode

def mnemonics : Array String :=
  #["nop", "aconst_null", "iconst_m1", "iconst_0", "iconst_1", "iconst_2", "iconst_3",
    "iconst_4", "iconst_5", "lconst_0", "lconst_1", "fconst_0", "fconst_1", "fconst_2",
    "dconst_0", "dconst_1", "bipush", "sipush", "ldc", "ldc_w", "ldc2_w", "iload", "lload",
    "fload", "dload", "aload", "iload_0", "iload_1", "iload_2", "iload_3", "lload_0", "lload_1",
    "lload_2", "lload_3", "fload_0", "fload_1", "fload_2", "fload_3", "dload_0", "dload_1",
    "dload_2", "dload_3", "aload_0", "aload_1", "aload_2", "aload_3", "iaload", "laload",
    "faload", "daload", "aaload", "baload", "caload", "saload", "istore", "lstore", "fstore",
    "dstore", "astore", "istore_0", "istore_1", "istore_2", "istore_3", "lstore_0", "lstore_1",
    "lstore_2", "lstore_3", "fstore_0", "fstore_1", "fstore_2", "fstore_3", "dstore_0",
    "dstore_1", "dstore_2", "dstore_3", "astore_0", "astore_1", "astore_2", "astore_3",
    "iastore", "lastore", "fastore", "dastore", "aastore", "bastore", "castore", "sastore",
    "pop", "pop2", "dup", "dup_x1", "dup_x2", "dup2", "dup2_x1", "dup2_x2", "swap", "iadd",
    "ladd", "fadd", "dadd", "isub", "lsub", "fsub", "dsub", "imul", "lmul", "fmul", "dmul",
    "idiv", "ldiv", "fdiv", "ddiv", "irem", "lrem", "frem", "drem", "ineg", "lneg", "fneg",
    "dneg", "ishl", "lshl", "ishr", "lshr", "iushr", "lushr", "iand", "land", "ior", "lor",
    "ixor", "lxor", "iinc", "i2l", "i2f", "i2d", "l2i", "l2f", "l2d", "f2i", "f2l", "f2d", "d2i",
    "d2l", "d2f", "i2b", "i2c", "i2s", "lcmp", "fcmpl", "fcmpg", "dcmpl", "dcmpg", "ifeq",
    "ifne", "iflt", "ifge", "ifgt", "ifle", "if_icmpeq", "if_icmpne", "if_icmplt", "if_icmpge",
    "if_icmpgt", "if_icmple", "if_acmpeq", "if_acmpne", "goto", "jsr", "ret", "tableswitch",
    "lookupswitch", "ireturn", "lreturn", "freturn", "dreturn", "areturn", "return", "getstatic",
    "putstatic", "getfield", "putfield", "invokevirtual", "invokespecial", "invokestatic",
    "invokeinterface", "invokedynamic", "new", "newarray", "anewarray", "arraylength", "athrow",
    "checkcast", "instanceof", "monitorenter", "monitorexit", "wide", "multianewarray", "ifnull",
    "ifnonnull", "goto_w", "jsr_w"]

def mnemonic (op : Opcode) : String :=
  match mnemonics[op.code.toNat]? with
  | some name => name
  | none => "opcode(" ++ toString op.code.toNat ++ ")"

def isInvoke (op : Opcode) : Bool :=
  0xb6 ≤ op.code && op.code ≤ 0xb9

def iinc : Opcode := ⟨0x84⟩

def shape? (op : Opcode) : Option OperandShape :=
  let b := op.code
  if b ≤ 0x0f then some (.plain 0)
  else if b = 0x10 then some (.plain 1)
  else if b = 0x11 then some (.plain 2)
  else if b = 0x12 then some .loadConstant
  else if b ≤ 0x14 then some .loadConstantWide
  else if b ≤ 0x19 then some (.plain 1)
  else if b ≤ 0x35 then some (.plain 0)
  else if b ≤ 0x3a then some (.plain 1)
  else if b ≤ 0x83 then some (.plain 0)
  else if b = 0x84 then some (.plain 2)
  else if b ≤ 0x98 then some (.plain 0)
  else if b ≤ 0xa8 then some (.plain 2)
  else if b = 0xa9 then some (.plain 1)
  else if b = 0xaa then some .tableSwitch
  else if b = 0xab then some .lookupSwitch
  else if b ≤ 0xb1 then some (.plain 0)
  else if b ≤ 0xb5 then some .fieldRef
  else if b ≤ 0xb8 then some (.methodRef 0)
  else if b = 0xb9 then some (.methodRef 2)
  else if b = 0xba then some .callSite
  else if b = 0xbb then some .typeRef
  else if b = 0xbc then some (.plain 1)
  else if b = 0xbd then some .typeRef
  else if b ≤ 0xbf then some (.plain 0)
  else if b ≤ 0xc1 then some .typeRef
  else if b ≤ 0xc3 then some (.plain 0)
  else if b = 0xc4 then some .wide
  else if b = 0xc5 then some .arrayType
  else if b ≤ 0xc7 then some (.plain 2)
  else if b ≤ 0xc9 then some (.plain 4)
  else none

end Opcode

end ClassAudit
