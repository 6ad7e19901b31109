/-! # Kinds of constants

    Every entry of a constant pool starts with a tag byte that says what the entry holds.
-/

namespace ClassAudit

/-- What an entry of the constant pool holds. An unusable slot has no tag of its own and counts
    as tag 0. -/
inductive Tag where
  | unusable
  | utf8
  | integer
  | float
  | long
  | double
  | classInfo
  | string
  | fieldref
  | methodref
  | interfaceMethodref
  | nameAndType
  | methodHandle
  | methodType
  | dynamic
  | invokeDynamic
  | moduleInfo
  | packageInfo
  deriving DecidableEq

namespace Tag

def toNat : Tag → Nat
  | unusable => 0
  | utf8 => 1
  | integer => 3
  | float => 4
  | long => 5
  | double => 6
  | classInfo => 7
  | string => 8
  | fieldref => 9
  | methodref => 10
  | interfaceMethodref => 11
  | nameAndType => 12
  | methodHandle => 15
  | methodType => 16
  | dynamic => 17
  | invokeDynamic => 18
  | moduleInfo => 19
  | packageInfo => 20

/-- The kind of constant that a tag byte announces, if there is one. -/
def ofNat? : Nat → Option Tag
  | 1 => some utf8
  | 3 => some integer
  | 4 => some float
  | 5 => some long
  | 6 => some double
  | 7 => some classInfo
  | 8 => some string
  | 9 => some fieldref
  | 10 => some methodref
  | 11 => some interfaceMethodref
  | 12 => some nameAndType
  | 15 => some methodHandle
  | 16 => some methodType
  | 17 => some dynamic
  | 18 => some invokeDynamic
  | 19 => some moduleInfo
  | 20 => some packageInfo
  | _ => none

/-- Constants of eight bytes take two slots of the pool. -/
def isWide : Tag → Bool
  | long | double => true
  | _ => false

end Tag

end ClassAudit
