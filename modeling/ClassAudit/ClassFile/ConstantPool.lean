import ClassAudit.ClassFile.Cursor
import ClassAudit.ClassFile.ModifiedUtf8

/-! # Constant pool

    The pool is an array of slots. Slot 0 and the slot after a constant of eight bytes are
    unusable. Entries refer to each other by slot number, and a lookup names the kinds of entry
    that it accepts.
-/

namespace ClassAudit

/-- The content of a slot. Numbers are passed over, since no analysis needs them. -/
inductive Constant where
  | unusable
  | utf8 (text : String)
  | integer
  | float
  | long
  | double
  | classInfo (name : Nat)
  | string (text : Nat)
  | fieldref (owner nameAndType : Nat)
  | methodref (owner nameAndType : Nat)
  | interfaceMethodref (owner nameAndType : Nat)
  | nameAndType (name descriptor : Nat)
  | methodHandle (kind reference : Nat)
  | methodType (descriptor : Nat)
  | dynamic (bootstrap nameAndType : Nat)
  | invokeDynamic (bootstrap nameAndType : Nat)
  | moduleInfo (name : Nat)
  | packageInfo (name : Nat)

namespace Constant

def tag : Constant → Tag
  | unusable => .unusable
  | utf8 _ => .utf8
  | integer => .integer
  | float => .float
  | long => .long
  | double => .double
  | classInfo _ => .classInfo
  | string _ => .string
  | fieldref _ _ => .fieldref
  | methodref _ _ => .methodref
  | interfaceMethodref _ _ => .interfaceMethodref
  | nameAndType _ _ => .nameAndType
  | methodHandle _ _ => .methodHandle
  | methodType _ => .methodType
  | dynamic _ _ => .dynamic
  | invokeDynamic _ _ => .invokeDynamic
  | moduleInfo _ => .moduleInfo
  | packageInfo _ => .packageInfo

def readBody (index : Nat) : Tag → Reader Constant
  | .unusable => return unusable
  | .utf8 => do
    let raw ← Reader.bytes (← Reader.u2)
    let text ← (FilePart.constant index).locate
      ((ModifiedUtf8.decode raw).mapError Malformed.ofCause)
    return utf8 text
  | .integer => do Reader.skip 4; return integer
  | .float => do Reader.skip 4; return float
  | .long => do Reader.skip 8; return long
  | .double => do Reader.skip 8; return double
  | .classInfo => return classInfo (← Reader.u2)
  | .string => return string (← Reader.u2)
  | .fieldref => return fieldref (← Reader.u2) (← Reader.u2)
  | .methodref => return methodref (← Reader.u2) (← Reader.u2)
  | .interfaceMethodref => return interfaceMethodref (← Reader.u2) (← Reader.u2)
  | .nameAndType => return nameAndType (← Reader.u2) (← Reader.u2)
  | .methodHandle => return methodHandle (← Reader.u1).toNat (← Reader.u2)
  | .methodType => return methodType (← Reader.u2)
  | .dynamic => return dynamic (← Reader.u2) (← Reader.u2)
  | .invokeDynamic => return invokeDynamic (← Reader.u2) (← Reader.u2)
  | .moduleInfo => return moduleInfo (← Reader.u2)
  | .packageInfo => return packageInfo (← Reader.u2)

def read (index : Nat) : Reader Constant := do
  let code := (← Reader.u1).toNat
  match Tag.ofNat? code with
  | none => Reader.fail (.badConstantTag code index)
  | some tag => readBody index tag

end Constant

structure ConstantPool where
  slots : Array Constant

namespace ConstantPool

/-! ### Reading the pool -/

/-- Fill the slots that are left, after those of `slots`. A constant of two slots must not start
    in the last one; `count` is the declared number of slots. -/
def readSlots (count : Nat) : Nat → Array Constant → Reader (Array Constant)
  | 0, slots => return slots
  | 1, slots => do
    let c ← Constant.read slots.size
    if c.tag.isWide then Reader.fail (.poolOverflow count)
    else return slots.push c
  | n + 2, slots => do
    let c ← Constant.read slots.size
    if c.tag.isWide then readSlots count n ((slots.push c).push .unusable)
    else readSlots count (n + 1) (slots.push c)

def read : Reader ConstantPool := do
  match ← Reader.u2 with
  | 0 => Reader.fail .emptyPool
  | n + 1 => return ⟨← readSlots (n + 1) n #[.unusable]⟩

/-! ### Lookups -/

/-- The part `view` shows of the constant in a slot, which has to be of one of the wanted
    kinds. -/
def lookup {α : Type} (pool : ConstantPool) (wanted : List Tag) (view : Constant → Option α)
    (index : Nat) : Except Malformed α :=
  if index = 0 then .error (.ofCause (.indexOutOfRange index))
  else
    match pool.slots[index]? with
    | none => .error (.ofCause (.indexOutOfRange index))
    | some c =>
      match view c with
      | some a => .ok a
      | none => .error (.ofCause (.wrongTag index c.tag wanted))

def utf8 (pool : ConstantPool) : Nat → Except Malformed String :=
  pool.lookup [.utf8] fun
    | .utf8 text => some text
    | _ => none

/-- The internal name of the class in a slot. The name of an array class is its descriptor. -/
def className (pool : ConstantPool) (index : Nat) : Except Malformed String := do
  let name ← pool.lookup [.classInfo] (fun
    | .classInfo name => some name
    | _ => none) index
  pool.utf8 name

/-- The internal name of the class in a slot, or the empty text where slot 0 says that there is
    none. -/
def optionalClassName (pool : ConstantPool) (index : Nat) : Except Malformed String :=
  if index = 0 then .ok "" else pool.className index

def nameAndType (pool : ConstantPool) (index : Nat) : Except Malformed (String × String) := do
  let (name, descriptor) ← pool.lookup [.nameAndType] (fun
    | .nameAndType name descriptor => some (name, descriptor)
    | _ => none) index
  return (← pool.utf8 name, ← pool.utf8 descriptor)

structure MemberRef where
  owner : String
  name : String
  descriptor : String

def memberRef (pool : ConstantPool) (slots : Nat × Nat) : Except Malformed MemberRef := do
  let owner ← pool.className slots.1
  let (name, descriptor) ← pool.nameAndType slots.2
  return ⟨owner, name, descriptor⟩

def fieldRef (pool : ConstantPool) (index : Nat) : Except Malformed MemberRef := do
  pool.memberRef (← pool.lookup [.fieldref] (fun
    | .fieldref owner nameAndType => some (owner, nameAndType)
    | _ => none) index)

def methodRef (pool : ConstantPool) (index : Nat) : Except Malformed MemberRef := do
  pool.memberRef (← pool.lookup [.methodref, .interfaceMethodref] (fun
    | .methodref owner nameAndType => some (owner, nameAndType)
    | .interfaceMethodref owner nameAndType => some (owner, nameAndType)
    | _ => none) index)

def callSite (pool : ConstantPool) (index : Nat) : Except Malformed (String × String) := do
  pool.nameAndType (← pool.lookup [.invokeDynamic] (fun
    | .invokeDynamic _ nameAndType => some nameAndType
    | _ => none) index)

end ConstantPool

end ClassAudit
