import ClassAudit.ClassFile.ConstantPool

/-! # Attribute tables

    A class, a field, a method and a code array each end with a table of named attributes. A
    reader takes what it knows by name and passes over the rest; every body is bounded by its
    stated length.
-/

namespace ClassAudit.Attribute

/-- Read a table of attributes, adding the body of each to what the table has shown so far.
    An attribute is taken in before the next one is framed. -/
def foldTable {σ : Type} (pool : ConstantPool)
    (add : σ → String → List UInt8 → Except Malformed σ) (start : σ) : Reader σ := do
  go (← Reader.u2) start
where
  go : Nat → σ → Reader σ
    | 0, seen => return seen
    | n + 1, seen => do
      let nameIndex ← Reader.u2
      let length ← Reader.u4
      let body ← Reader.bytes length
      let name ← FilePart.attributeName.locate (pool.utf8 nameIndex)
      go n (← (FilePart.attributeBody name).locate (add seen name body))

def text (pool : ConstantPool) (body : List UInt8) : Except Malformed String :=
  Reader.on (do pool.utf8 (← Reader.u2)) body

/-- The classes named by an attribute whose body is a table of slot numbers. -/
def classNames (pool : ConstantPool) (body : List UInt8) : Except Malformed (List String) :=
  Reader.on (Reader.table do pool.className (← Reader.u2)) body

end ClassAudit.Attribute
