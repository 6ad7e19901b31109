/-! # Access flags

    The flags of classes and methods that analyses ask for.
-/

namespace ClassAudit.Access

def isPrivate : Nat := 0x0002
def isStatic : Nat := 0x0008
def isInterface : Nat := 0x0200
def isAbstract : Nat := 0x0400
def isSynthetic : Nat := 0x1000
def isAnnotationType : Nat := 0x2000
def isModule : Nat := 0x8000

def hasAny (access : Nat) (flags : List Nat) : Bool :=
  flags.any fun flag => access &&& flag != 0

end ClassAudit.Access
