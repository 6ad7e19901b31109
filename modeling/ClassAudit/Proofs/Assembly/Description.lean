import Mathlib.Algebra.GroupWithZero.Nat
import ClassAudit.Assembly.Basic
import ClassAudit.ClassFile.Basic
import ClassAudit.Proofs.Assembly.Pool

/-! # Described classes

    What a class description says, as the record of a compiled class: `Class.described`. No byte
    and no slot is involved, only the order in which things come.

    `Class.Fits` collects the limits of the file format: texts that a constant can hold, counts and
    offsets of two bytes, attribute bodies of less than 2 ^ 32 bytes. `Class.Complete` asks that
    each item of code that should be an instruction is one.
-/

namespace ClassAudit.Assembly

/-! ### Annotations -/

namespace Value

mutual

/-- The descriptors that an element value refers to. A nested annotation comes after what its
    elements refer to. -/
def refs : Value → List String
  | .int _ => []
  | .text _ => []
  | .enum descriptor _ => [descriptor]
  | .classLiteral descriptor => [descriptor]
  | .nested descriptor elements => elementRefs elements ++ [descriptor]
  | .array values => allRefs values

/-- The descriptors that named elements refer to. -/
def elementRefs : List (String × Value) → List String
  | [] => []
  | (_, value) :: rest => value.refs ++ elementRefs rest

def allRefs : List Value → List String
  | [] => []
  | value :: rest => value.refs ++ allRefs rest

end

mutual

/-- The number of bytes of an element value. -/
def size : Value → Nat
  | .int _ => 3
  | .text _ => 3
  | .enum _ _ => 5
  | .classLiteral _ => 3
  | .nested _ elements => 5 + elementsSize elements
  | .array values => 3 + allSize values

def elementsSize : List (String × Value) → Nat
  | [] => 0
  | (_, value) :: rest => 2 + value.size + elementsSize rest

def allSize : List Value → Nat
  | [] => 0
  | value :: rest => value.size + allSize rest

end

mutual

/-- Whether the texts and counts of an element value fit. -/
def Fits : Value → Prop
  | .int _ => True
  | .text value => Encodable value
  | .enum descriptor name => Encodable descriptor ∧ Encodable name
  | .classLiteral descriptor => Encodable descriptor
  | .nested descriptor elements =>
    Encodable descriptor ∧ elements.length < 65536 ∧ ElementsFit elements
  | .array values => values.length < 65536 ∧ AllFit values

def ElementsFit : List (String × Value) → Prop
  | [] => True
  | (name, value) :: rest => Encodable name ∧ value.Fits ∧ ElementsFit rest

def AllFit : List Value → Prop
  | [] => True
  | value :: rest => value.Fits ∧ AllFit rest

end

end Value

namespace AnnotationSpec

/-- The annotation that is described. -/
def described (target : AnnotationTarget) (visible : Bool) (parameter : Nat)
    (a : AnnotationSpec) : AnnotationInfo where
  target := target
  parameter := parameter
  descriptor := a.descriptor
  visible := visible
  refs := Value.elementRefs a.elements

/-- The annotations that are described, the visible ones first. -/
def describedAll (target : AnnotationTarget) (annotations : List AnnotationSpec) :
    List AnnotationInfo :=
  (annotations.filter (!·.invisible)).map (described target true 0) ++
    (annotations.filter (·.invisible)).map (described target false 0)

def tableSize (annotations : List AnnotationSpec) : Nat :=
  2 + (annotations.map fun a => 4 + Value.elementsSize a.elements).sum

/-- Whether the texts and counts of an annotation fit. -/
structure Fits (a : AnnotationSpec) : Prop where
  descriptor : Encodable a.descriptor
  count : a.elements.length < 65536
  elements : Value.ElementsFit a.elements

/-- Whether the annotations of a class or member fit into their two attributes. -/
structure AllFit (annotations : List AnnotationSpec) : Prop where
  each : ∀ a ∈ annotations, a.Fits
  visible : (annotations.filter (!·.invisible)).length < 65536
  visibleSize : tableSize (annotations.filter (!·.invisible)) < 4294967296
  invisible : (annotations.filter (·.invisible)).length < 65536
  invisibleSize : tableSize (annotations.filter (·.invisible)) < 4294967296

end AnnotationSpec

/-! ### Code -/

/-- A number that an unsigned field of two bytes can hold. -/
def IsU2 (v : Int) : Prop :=
  0 ≤ v ∧ v < 65536

instance (v : Int) : Decidable (IsU2 v) :=
  inferInstanceAs (Decidable (0 ≤ v ∧ v < 65536))

/-- A number that a signed field of four bytes can hold. -/
def IsS4 (v : Int) : Prop :=
  -2147483648 ≤ v ∧ v < 2147483648

instance (v : Int) : Decidable (IsS4 v) :=
  inferInstanceAs (Decidable (-2147483648 ≤ v ∧ v < 2147483648))

/-- Bytes that may follow an opcode at `pc`, for instructions that name no constant. -/
inductive RawOperands (pc : Nat) : OperandShape → List UInt8 → Prop where
  | plain {size : Nat} {bytes : List UInt8} :
      bytes.length = size → RawOperands pc (.plain size) bytes
  | wideIncrement {bytes : List UInt8} :
      bytes.length = 4 → RawOperands pc .wide (Opcode.iinc.code :: bytes)
  | wide {op : UInt8} {bytes : List UInt8} :
      op ≠ Opcode.iinc.code → bytes.length = 2 → RawOperands pc .wide (op :: bytes)
  | tableSwitch {filling otherwise targets : List UInt8} {low high : Int} :
      filling.length = Instruction.switchPadding pc → otherwise.length = 4 →
      IsS4 low → IsS4 high → low ≤ high → targets.length = (high - low + 1).toNat * 4 →
      RawOperands pc .tableSwitch (filling ++ (otherwise ++ (u4 low ++ (u4 high ++ targets))))
  | lookupSwitch {filling otherwise pairs : List UInt8} {count : Nat} :
      filling.length = Instruction.switchPadding pc → otherwise.length = 4 →
      count < 2147483648 → pairs.length = count * 8 →
      RawOperands pc .lookupSwitch (filling ++ (otherwise ++ (u4 count ++ pairs)))

namespace CodeItem

/-- The instruction that an item at `pc` describes, if it describes one. -/
def instruction? (pc : Int) : CodeItem → Option Instruction
  | plain opcode _ => some ⟨pc.toNat, ⟨opcode⟩, .nothing⟩
  | type opcode name => some ⟨pc.toNat, ⟨opcode⟩, .type name⟩
  | field opcode owner name descriptor =>
    some ⟨pc.toNat, ⟨opcode⟩, .member owner name descriptor⟩
  | invoke opcode owner name descriptor =>
    some ⟨pc.toNat, ⟨opcode⟩, .member owner name descriptor⟩
  | invokeDynamic name descriptor => some ⟨pc.toNat, ⟨0xba⟩, .callSite name descriptor⟩
  | loadClass name => some ⟨pc.toNat, ⟨0x13⟩, .type name⟩
  | loadString _ => some ⟨pc.toNat, ⟨0x12⟩, .nothing⟩
  | loadLong _ => some ⟨pc.toNat, ⟨0x14⟩, .nothing⟩
  | loadMethodType descriptor => some ⟨pc.toNat, ⟨0x13⟩, .methodType descriptor⟩
  | newArray descriptor dims => some ⟨pc.toNat, ⟨0xc5⟩, .arrayType descriptor dims.toNat⟩
  | tableSwitch _ _ => some ⟨pc.toNat, ⟨0xaa⟩, .nothing⟩
  | lookupSwitch _ => some ⟨pc.toNat, ⟨0xab⟩, .nothing⟩
  | line _ => none
  | catchBlock _ _ _ _ => none
  | localVariable _ _ _ _ => none

/-- Whether the texts and numbers of an item fit. -/
def Fits : CodeItem → Prop
  | plain _ _ => True
  | type _ name => Encodable name
  | field _ owner name descriptor => Encodable owner ∧ Encodable name ∧ Encodable descriptor
  | invoke _ owner name descriptor => Encodable owner ∧ Encodable name ∧ Encodable descriptor
  | invokeDynamic name descriptor => Encodable name ∧ Encodable descriptor
  | loadClass name => Encodable name
  | loadString value => Encodable value
  | loadLong _ => True
  | loadMethodType descriptor => Encodable descriptor
  | newArray descriptor _ => Encodable descriptor
  | tableSwitch low high => IsS4 low ∧ IsS4 high
  | lookupSwitch _ => True
  | line number => IsU2 number
  | catchBlock startPc endPc handlerPc caught =>
    IsU2 startPc ∧ IsU2 endPc ∧ IsU2 handlerPc ∧ Encodable caught
  | localVariable name descriptor signature index =>
    Encodable name ∧ Encodable descriptor ∧ Encodable signature ∧ IsU2 index

/-- Whether an item at `pc` writes one whole instruction of the kind that it stands for. Plain
    operands name no constant, and a table switch has a key for each of its targets. -/
def Complete (pc : Int) : CodeItem → Prop
  | plain opcode operands =>
    ∃ shape, Opcode.shape? ⟨opcode⟩ = some shape ∧ RawOperands pc.toNat shape operands
  | type opcode _ => opcode ∈ [0xbb, 0xbd, 0xc0, 0xc1]
  | field opcode _ _ _ => opcode ∈ [0xb2, 0xb3, 0xb4, 0xb5]
  | invoke opcode _ _ _ => opcode ∈ [0xb6, 0xb7, 0xb8, 0xb9]
  | tableSwitch low high => low ≤ high ∧ high - low + 1 < 2147483648
  | _ => True

end CodeItem

namespace Code

/-- The instructions of the items from `pc` on. -/
def instructionsFrom (pc : Int) (code : Code) : List Instruction :=
  (placed pc code).filterMap fun x => x.2.instruction? x.1

/-- The code that is described. -/
def described (code : Code) : ClassAudit.Code where
  instructions := instructionsFrom 0 code
  lines := code.lineRows.map fun (pc, number) => ⟨pc.toNat, number.toNat⟩
  catches := code.catchRows.map fun row =>
    ⟨row.startPc.toNat, row.endPc.toNat, row.handlerPc.toNat, row.type⟩
  locals := code.localRows.map fun row =>
    ⟨row.name, row.descriptor, row.signature, row.index.toNat, 0⟩

/-- The rows of the table of generic types. -/
def typedRows (code : Code) : List LocalRow :=
  code.localRows.filter (·.signature ≠ "")

/-- The number of bytes of an attribute with a table of rows, which is left out if it has none. -/
def tableSize (rowSize count : Nat) : Nat :=
  if count = 0 then 0 else 8 + rowSize * count

/-- The number of bytes of a method body with its tables. -/
def bodySize (code : Code) : Int :=
  12 + code.endPc + 8 * code.catchRows.length + tableSize 4 code.lineRows.length +
    tableSize 10 code.localRows.length + tableSize 10 code.typedRows.length

/-- Whether the items of a method body and its tables fit. -/
structure Fits (code : Code) : Prop where
  items : ∀ item ∈ code, item.Fits
  linePcs : ∀ row ∈ code.lineRows, IsU2 row.1
  lines : code.lineRows.length < 65536
  catches : code.catchRows.length < 65536
  locals : code.localRows.length < 65536
  /-- Local variables have slots of their own. -/
  slots : (code.localRows.map LocalRow.index).Nodup
  size : code.bodySize < 4294967296

end Code

/-! ### Members and classes -/

def Field.described (f : Field) : ClassAudit.Field where
  access := f.access.toNat
  name := f.name
  descriptor := f.descriptor
  signature := f.signature
  annotations := AnnotationSpec.describedAll .fieldDecl f.annotations

structure Field.Fits (f : Field) : Prop where
  access : IsU2 f.access
  name : Encodable f.name
  descriptor : Encodable f.descriptor
  signature : Encodable f.signature
  annotations : AnnotationSpec.AllFit f.annotations

namespace Method

/-- The default value that is described, as a list. -/
def describedDefault (m : Method) : List AnnotationInfo :=
  m.default.toList.map fun value =>
    { target := .defaultValue, parameter := 0, descriptor := "", visible := true
      refs := value.refs }

def describedParameters (m : Method) : List AnnotationInfo :=
  m.paramAnnotations.zipIdx.flatMap fun (annotations, parameter) =>
    annotations.map (AnnotationSpec.described .parameter true parameter)

/-- The method that is described: its default value comes first, then its annotations, then those
    of its parameters. -/
def described (m : Method) : ClassAudit.Method where
  access := m.access.toNat
  name := m.name
  descriptor := m.descriptor
  signature := m.signature
  exceptions := m.exceptions
  annotations := m.describedDefault ++ AnnotationSpec.describedAll .methodDecl m.annotations ++
    m.describedParameters
  code := m.code.map Code.described

structure Fits (m : Method) : Prop where
  access : IsU2 m.access
  name : Encodable m.name
  descriptor : Encodable m.descriptor
  signature : Encodable m.signature
  exceptions : ∀ name ∈ m.exceptions, Encodable name
  exceptionCount : m.exceptions.length < 65536
  annotations : AnnotationSpec.AllFit m.annotations
  parameters : ∀ annotations ∈ m.paramAnnotations,
    annotations.length < 65536 ∧ ∀ a ∈ annotations, a.Fits
  parameterCount : m.paramAnnotations.length ≤ 255
  parameterSize : 1 + (m.paramAnnotations.map AnnotationSpec.tableSize).sum < 4294967296
  default : ∀ value, m.default = some value → value.Fits ∧ value.size < 4294967296
  code : ∀ code, m.code = some code → code.Fits

end Method

namespace Class

def describedSuper (c : Class) : String :=
  if c.superName = "" then "java/lang/Object"
  else if c.superName = "-" then ""
  else c.superName

def described (c : Class) : ClassFile where
  minorVersion := 0
  majorVersion := 52
  access := c.access.toNat
  name := c.name
  superName := c.describedSuper
  interfaces := c.interfaces
  signature := c.signature
  sourceFile := c.sourceFile
  annotations := AnnotationSpec.describedAll .classDecl c.annotations
  fields := c.fields.map Field.described
  methods := c.methods.map Method.described

def pool (c : Class) : Pool :=
  (c.writeBody Pool.empty).2

/-- Whether a class fits into a class file. -/
structure Fits (c : Class) : Prop where
  access : IsU2 c.access
  name : Encodable c.name
  superName : Encodable c.superName
  interfaces : ∀ name ∈ c.interfaces, Encodable name
  interfaceCount : c.interfaces.length < 65536
  signature : Encodable c.signature
  sourceFile : Encodable c.sourceFile
  annotations : AnnotationSpec.AllFit c.annotations
  fields : ∀ f ∈ c.fields, f.Fits
  fieldCount : c.fields.length < 65536
  methods : ∀ m ∈ c.methods, m.Fits
  methodCount : c.methods.length < 65536
  poolSize : c.pool.next ≤ 65535

/-- Whether every item of code that stands for an instruction writes one. -/
def Complete (c : Class) : Prop :=
  ∀ m ∈ c.methods, ∀ code, m.code = some code → ∀ x ∈ code.placed 0, x.2.Complete x.1

/-- Whether the strings that code loads have slots of one byte. -/
def StringsNear (c : Class) : Prop :=
  ∀ text slot, (.string text, slot) ∈ c.pool.entries → slot ≤ 255

end Class

end ClassAudit.Assembly
