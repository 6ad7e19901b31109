import ClassAudit.Assembly.Pool

/-! # Assembling annotations

    Annotations and their element values, as a class description gives them.
-/

namespace ClassAudit.Assembly

inductive Value where
  | int (value : Int)
  | text (value : String)
  | enum (descriptor name : String)
  | classLiteral (descriptor : String)
  | nested (descriptor : String) (elements : List (String × Value))
  | array (values : List Value)

structure AnnotationSpec where
  descriptor : String
  /-- An invisible annotation is not kept for the running program. -/
  invisible : Bool
  elements : List (String × Value)

namespace Value

/-- The name of an element; an element without a name is the one that is called `value`. -/
def elementName (name : String) : String :=
  if name = "" then "value" else name

mutual

def write : Value → Assembler (List UInt8)
  | .int value => return 'I'.toUInt8 :: u2 (← Assembler.integer value)
  | .text value => return 's'.toUInt8 :: u2 (← Assembler.utf8 value)
  | .enum descriptor name =>
    return 'e'.toUInt8 :: u2 (← Assembler.utf8 descriptor) ++ u2 (← Assembler.utf8 name)
  | .classLiteral descriptor => return 'c'.toUInt8 :: u2 (← Assembler.utf8 descriptor)
  | .nested descriptor elements =>
    return '@'.toUInt8 :: u2 (← Assembler.utf8 descriptor) ++ u2 elements.length ++
      (← writeElements elements)
  | .array values => return '['.toUInt8 :: u2 values.length ++ (← writeAll values)

def writeElements : List (String × Value) → Assembler (List UInt8)
  | [] => return []
  | (name, value) :: rest =>
    return u2 (← Assembler.utf8 (elementName name)) ++ (← value.write) ++ (← writeElements rest)

def writeAll : List Value → Assembler (List UInt8)
  | [] => return []
  | value :: rest => return (← value.write) ++ (← writeAll rest)

end

end Value

namespace AnnotationSpec

def write (a : AnnotationSpec) : Assembler (List UInt8) :=
  return u2 (← Assembler.utf8 a.descriptor) ++ u2 a.elements.length ++
    (← Value.writeElements a.elements)

/-- The attribute that holds annotations under a name, if there are any. -/
def attribute? (name : String) : List AnnotationSpec → Assembler (List (String × List UInt8))
  | [] => return []
  | annotations => return [(name, ← Assembler.table write annotations)]

/-- The attributes of annotations: the visible ones, then the invisible ones. -/
def attributes (annotations : List AnnotationSpec) : Assembler (List (String × List UInt8)) := do
  let visible ← attribute? "RuntimeVisibleAnnotations" (annotations.filter (!·.invisible))
  let invisible ← attribute? "RuntimeInvisibleAnnotations" (annotations.filter (·.invisible))
  return visible ++ invisible

end AnnotationSpec

end ClassAudit.Assembly
