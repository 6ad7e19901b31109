import Mathlib.Data.List.Chain
import ClassAudit.Proofs.ClassFile.Prefix

/-! # Instructions lie side by side

    How long an instruction is can be told from its opcode, and for switches and wide instructions
    from a few bytes behind it (`Instruction.lengthAt?`). A code array is read successfully exactly
    if instructions of these lengths fill it from its first byte to its last, and the constants that
    they name are in the pool (`Instruction.readAll_iff_tiles`).

    Readers are followed by the positions at which they stand: `Cursor.before data k` is the cursor
    in front of byte `k`, and for each reader there is a condition on the bytes from `k` on under
    which it succeeds.
-/

namespace ClassAudit

variable {n pc : Nat} {i : Instruction} {is : List Instruction}

/-! ### Readers at a position -/

/-- The cursor in front of byte `k` of a byte string. -/
def Cursor.before (data : List UInt8) (k : Nat) : Cursor :=
  ⟨k, data.drop k⟩

def uint16At (data : List UInt8) (k : Nat) : Nat :=
  (data.getD k 0).toNat * 256 + (data.getD (k + 1) 0).toNat

/-- The signed number of four bytes from `k` on, in two's complement. -/
def int32At? (data : List UInt8) (k : Nat) : Option Int :=
  match data.drop k with
  | b₃ :: b₂ :: b₁ :: b₀ :: _ =>
    some (b₃.toBitVec ++ b₂.toBitVec ++ b₁.toBitVec ++ b₀.toBitVec).toInt
  | _ => none

/-- Two's complement is a remainder around zero. -/
theorem toInt_append (b₃ b₂ b₁ b₀ : UInt8) :
    (b₃.toBitVec ++ b₂.toBitVec ++ b₁.toBitVec ++ b₀.toBitVec).toInt =
      Int.bmod (((b₃.toNat * 256 + b₂.toNat) * 256 + b₁.toNat) * 256 + b₀.toNat : Nat)
        0x100000000 := by
  -- Shifting leaves the low eight bits free, so that the next byte is added there.
  have hshift (a : Nat) (b : UInt8) : a <<< 8 ||| b.toBitVec.toNat = a * 256 + b.toNat := by
    rw [← Nat.shiftLeft_add_eq_or_of_lt b.toBitVec.isLt, Nat.shiftLeft_eq]
    rfl
  rw [BitVec.toInt_eq_toNat_bmod, BitVec.toNat_append, BitVec.toNat_append, BitVec.toNat_append,
    hshift, hshift, hshift]
  rfl

namespace Reader

section Composition

variable {α β : Type} {c c' : Cursor}
variable {r : Reader α}

theorem bind_eq_ok_iff {f : α → Reader β} {x : β × Cursor} :
    (r >>= f) c = .ok x ↔ ∃ a c', r c = .ok (a, c') ∧ f a c' = .ok x := by
  refine ⟨bind_eq_ok, ?_⟩
  rintro ⟨a, c', hr, hf⟩
  show (r c >>= fun y => f y.1 y.2) = _
  rw [hr]
  exact hf

theorem pure_eq_ok_iff {a b : α} :
    (pure a : Reader α) c = .ok (b, c') ↔ b = a ∧ c' = c := by
  show Except.ok (a, c) = _ ↔ _
  rw [Except.ok.injEq, Prod.mk.injEq, eq_comm, @eq_comm _ c]

theorem lift_eq_ok_iff {e : Except Malformed α} {a : α} :
    (liftM e : Reader α) c = .ok (a, c') ↔ e = .ok a ∧ c' = c := by
  cases e with
  | error e => exact ⟨fun h => (nomatch h), fun h => (nomatch h.1)⟩
  | ok b =>
    show Except.ok (b, c) = _ ↔ _
    rw [Except.ok.injEq, Prod.mk.injEq, Except.ok.injEq, @eq_comm _ c]

theorem map_eq_ok_iff {ε : Type} {e : Except ε α} {f : α → β} {b : β} :
    e.map f = .ok b ↔ ∃ a, e = .ok a ∧ f a = b := by
  cases e with
  | error e => simp [Except.map]
  | ok a => simp [Except.map]

theorem unless_eq_ok_iff {p : Prop} [Decidable p] {cause : MalformedCause} {f : Unit → Reader α}
    {x : α × Cursor} : (if p then fail cause >>= f else r) c = .ok x ↔ ¬ p ∧ r c = .ok x := by
  split
  · next h => exact ⟨fun hfail => (nomatch hfail), fun hr => absurd h hr.1⟩
  · next h => exact ⟨fun hr => ⟨h, hr⟩, And.right⟩

theorem inside_eq_ok_iff {part : FilePart} {x : α × Cursor} :
    inside part r c = .ok x ↔ r c = .ok x := by
  show part.locate (r c) = _ ↔ _
  cases r c with
  | error e => exact ⟨fun h => (nomatch h), fun h => (nomatch h)⟩
  | ok y => exact Iff.rfl

end Composition

variable {data : List UInt8} {k n : Nat} {c : Cursor}

theorem u1_eq_ok_iff {b : UInt8} :
    u1 (.before data k) = .ok (b, c) ↔ data[k]? = some b ∧ c = .before data (k + 1) := by
  have hhead : data[k]? = (data.drop k).head? := by
    rw [List.head?_eq_getElem?, List.getElem?_drop, Nat.add_zero]
  have htail : data.drop (k + 1) = (data.drop k).tail := by
    rw [List.tail_drop]
  unfold u1 Cursor.before
  rw [hhead, htail]
  cases data.drop k with
  | nil => simp [short]
  | cons b' rest => simp [eq_comm]

theorem u2_eq_ok_iff {m : Nat} :
    u2 (.before data k) = .ok (m, c) ↔
      2 ≤ data.length - k ∧ m = uint16At data k ∧ c = .before data (k + 2) := by
  have hfirst : data[k]? = (data.drop k)[0]? := by
    rw [List.getElem?_drop, Nat.add_zero]
  have hsecond : data[k + 1]? = (data.drop k)[1]? := by
    rw [List.getElem?_drop]
  have hrest : data.drop (k + 2) = (data.drop k).drop 2 := by
    rw [List.drop_drop]
  unfold u2 Cursor.before uint16At
  rw [List.getD_eq_getElem?_getD, List.getD_eq_getElem?_getD, hfirst, hsecond, hrest,
    ← List.length_drop]
  rcases data.drop k with _ | ⟨b₁, _ | ⟨b₀, rest⟩⟩
  · simp [short]
  · simp [short]
  · simp [eq_comm]

theorem s4_eq_ok_iff {v : Int} :
    s4 (.before data k) = .ok (v, c) ↔ int32At? data k = some v ∧ c = .before data (k + 4) := by
  have hrest : data.drop (k + 4) = (data.drop k).drop 4 := by
    rw [List.drop_drop]
  unfold s4
  rw [bind_eq_ok_iff]
  simp only [pure_eq_ok_iff]
  unfold u4 int32At? Cursor.before
  rw [hrest]
  rcases data.drop k with _ | ⟨b₃, _ | ⟨b₂, _ | ⟨b₁, _ | ⟨b₀, rest⟩⟩⟩⟩
  · simp [short]
  · simp [short]
  · simp [short]
  · simp [short]
  · simp [toInt_append, eq_comm, and_comm]

theorem bytes_eq_ok_iff {bs : List UInt8} :
    bytes n (.before data k) = .ok (bs, c) ↔
      n ≤ data.length - k ∧ bs = (data.drop k).take n ∧ c = .before data (k + n) := by
  unfold Cursor.before
  simp only [bytes, List.length_take, List.length_drop, List.drop_drop]
  split
  · next h =>
    rw [Except.ok.injEq, Prod.mk.injEq, eq_comm, @eq_comm _ c]
    exact ⟨fun hread => ⟨by omega, hread⟩, And.right⟩
  · next h =>
    constructor
    · intro hshort
      simp [short] at hshort
    · intro hlong
      omega

theorem skip_eq_ok_iff {u : Unit} :
    skip n (.before data k) = .ok (u, c) ↔ n ≤ data.length - k ∧ c = .before data (k + n) := by
  unfold skip
  rw [bind_eq_ok_iff]
  simp [bytes_eq_ok_iff, pure_eq_ok_iff]

end Reader

/-! ### Lengths of instructions -/

/-- The number of operand bytes of an opcode that always has the same number of them. -/
def Opcode.operandSize? (op : Opcode) : Option Nat :=
  let b := op.code
  if b ≤ 0x0f then some 0
  else if b = 0x10 ∨ b = 0x12 then some 1
  else if b = 0x11 ∨ b = 0x13 ∨ b = 0x14 then some 2
  else if 0x15 ≤ b ∧ b ≤ 0x19 then some 1
  else if 0x1a ≤ b ∧ b ≤ 0x35 then some 0
  else if 0x36 ≤ b ∧ b ≤ 0x3a then some 1
  else if 0x3b ≤ b ∧ b ≤ 0x83 then some 0
  else if b = 0x84 then some 2
  else if 0x85 ≤ b ∧ b ≤ 0x98 then some 0
  else if 0x99 ≤ b ∧ b ≤ 0xa8 then some 2
  else if b = 0xa9 then some 1
  else if 0xac ≤ b ∧ b ≤ 0xb1 then some 0
  else if 0xb2 ≤ b ∧ b ≤ 0xb8 then some 2
  else if b = 0xb9 ∨ b = 0xba then some 4
  else if b = 0xbb ∨ b = 0xbd ∨ b = 0xc0 ∨ b = 0xc1 then some 2
  else if b = 0xbc then some 1
  else if b = 0xbe ∨ b = 0xbf ∨ b = 0xc2 ∨ b = 0xc3 then some 0
  else if b = 0xc5 then some 3
  else if b = 0xc6 ∨ b = 0xc7 then some 2
  else if b = 0xc8 ∨ b = 0xc9 then some 4
  else none

namespace Instruction

/-- The number of bytes of the instruction at an offset of a code array, if there is one. The
    operands of a switch start at a multiple of four: a default target, and then either the bounds
    of a table or the number of its pairs. A wide instruction has another opcode behind its own. -/
def lengthAt? (code : List UInt8) (pc : Nat) : Option Nat := do
  let op ← code[pc]?
  let pad := 3 - pc % 4
  if op = 0xaa then
    let low ← int32At? code (pc + 1 + pad + 4)
    let high ← int32At? code (pc + 1 + pad + 8)
    if low ≤ high then some (1 + pad + 12 + 4 * (high - low + 1).toNat) else none
  else if op = 0xab then
    let pairs ← int32At? code (pc + 1 + pad + 4)
    if 0 ≤ pairs then some (1 + pad + 8 + 8 * pairs.toNat) else none
  else if op = 0xc4 then
    let widened ← code[pc + 1]?
    some (if widened = 0x84 then 6 else 4)
  else
    let size ← Opcode.operandSize? ⟨op⟩
    some (1 + size)

/-- The offset behind an instruction of a code array. -/
def nextOffset? (code : List UInt8) (i : Instruction) : Option Nat :=
  (lengthAt? code i.offset).map (i.offset + ·)

/-- The instructions lie side by side from the first byte of a code array to its last. -/
structure Tiles (code : List UInt8) (instructions : List Instruction) : Prop where
  /-- Only an empty array has no instructions. -/
  nil_iff : instructions = [] ↔ code = []
  /-- The first instruction starts with the array. -/
  first : ∀ i ∈ instructions.head?, i.offset = 0
  /-- The opcode of each instruction is the byte at its offset. -/
  opcode : ∀ i ∈ instructions, code[i.offset]? = some i.opcode.code
  /-- Each instruction starts where the one in front of it ends. -/
  next : instructions.IsChain fun i j => nextOffset? code i = some j.offset
  /-- The last instruction ends with the array. -/
  last : ∀ i ∈ instructions.getLast?, nextOffset? code i = some code.length

/-- What the bytes behind an opcode at `pc` name in a pool. -/
def operandAt (pool : ConstantPool) (code : List UInt8) (pc : Nat) :
    OperandShape → Except Malformed Operand
  | .typeRef => (pool.className (uint16At code (pc + 1))).map .type
  | .fieldRef =>
    (pool.fieldRef (uint16At code (pc + 1))).map fun f => .member f.owner f.name f.descriptor
  | .methodRef _ =>
    (pool.methodRef (uint16At code (pc + 1))).map fun m => .member m.owner m.name m.descriptor
  | .callSite => (pool.callSite (uint16At code (pc + 1))).map fun s => .callSite s.1 s.2
  | .loadConstant => loadedOperand pool (code.getD (pc + 1) 0).toNat
  | .loadConstantWide => loadedOperand pool (uint16At code (pc + 1))
  | .arrayType =>
    (pool.className (uint16At code (pc + 1))).map (.arrayType · (code.getD (pc + 3) 0).toNat)
  | .plain _ | .tableSwitch | .lookupSwitch | .wide => .ok .nothing

/-- The operand of an instruction is what its bytes name. -/
def Resolved (pool : ConstantPool) (code : List UInt8) (i : Instruction) : Prop :=
  ∃ shape, i.opcode.shape? = some shape ∧ operandAt pool code i.offset shape = .ok i.operand

end Instruction

/-! ### Shapes and lengths -/

/-- The number of operand bytes of a shape that always has the same number of them. -/
def OperandShape.size? : OperandShape → Option Nat
  | .plain size => some size
  | .typeRef | .fieldRef | .loadConstantWide => some 2
  | .methodRef padding => some (2 + padding)
  | .callSite => some 4
  | .loadConstant => some 1
  | .arrayType => some 3
  | .tableSwitch | .lookupSwitch | .wide => none

deriving instance DecidableEq for OperandShape

/-- The two tables of opcodes agree: that of lengths and that of shapes. -/
theorem Opcode.tables_agree (op : Opcode) :
    op.operandSize? = op.shape?.bind OperandShape.size? ∧
      (op.shape? = some .tableSwitch ↔ op.code = 0xaa) ∧
      (op.shape? = some .lookupSwitch ↔ op.code = 0xab) ∧
      (op.shape? = some .wide ↔ op.code = 0xc4) := by
  -- There are no other opcodes, so that all of them can be tried.
  have hcodes : ∀ n < 256, let op : Opcode := ⟨.ofNat n⟩
      op.operandSize? = op.shape?.bind OperandShape.size? ∧
        (op.shape? = some .tableSwitch ↔ op.code = 0xaa) ∧
        (op.shape? = some .lookupSwitch ↔ op.code = 0xab) ∧
        (op.shape? = some .wide ↔ op.code = 0xc4) := by
    decide +kernel
  have h := hcodes op.code.toNat op.code.toNat_lt
  rwa [UInt8.ofNat_toNat] at h

theorem int32At?_bound {data : List UInt8} {k : Nat} {v : Int} (h : int32At? data k = some v) :
    k + 4 ≤ data.length := by
  have hlen := data.length_drop (i := k)
  unfold int32At? at h
  split at h
  · next heq =>
    rw [heq] at hlen
    simp only [List.length_cons] at hlen
    omega
  · nomatch h

namespace Instruction

open Reader

section Operand

variable {pool : ConstantPool} {code : List UInt8} {pc : Nat} {operand : Operand} {c : Cursor}

theorem byte_eq_some_iff {k : Nat} {b : UInt8} :
    code[k]? = some b ↔ k < code.length ∧ code.getD k 0 = b := by
  rw [List.getD_eq_getElem?_getD, List.getElem?_eq_some_iff]
  constructor
  · rintro ⟨hk, rfl⟩
    simp [hk]
  · rintro ⟨hk, rfl⟩
    simp [hk]

/-- The operands of the instruction at `pc` are read if it has a length, lies inside of the code
    array and names what is in the pool, and the reader then stands behind it. -/
def ReadsOver (pool : ConstantPool) (code : List UInt8) (pc : Nat) (shape : OperandShape) : Prop :=
  ∀ operand c, readOperand pool pc shape (.before code (pc + 1)) = .ok (operand, c) ↔
    ∃ n, lengthAt? code pc = some n ∧ pc + n ≤ code.length ∧
      operandAt pool code pc shape = .ok operand ∧ c = .before code (pc + n)

theorem readsOver_of_size {op : UInt8} (hop : code[pc]? = some op) {shape : OperandShape}
    {size : Nat} (hop' : Opcode.operandSize? ⟨op⟩ = some size) (hsize : shape.size? = some size) :
    ReadsOver pool code pc shape := by
  have hpc := (List.getElem?_eq_some_iff.mp hop).1
  have hlength : lengthAt? code pc = some (1 + size) := by
    have hne : op ≠ 0xaa ∧ op ≠ 0xab ∧ op ≠ 0xc4 := by
      refine ⟨?_, ?_, ?_⟩ <;> rintro rfl <;> nomatch hop'
    simp [lengthAt?, hop, hne, hop']
  intro operand c
  simp only [hlength, Option.some.injEq, exists_eq_left', ← Nat.add_assoc]
  cases shape with
  | tableSwitch | lookupSwitch | wide => nomatch hsize
  | plain | typeRef | fieldRef | methodRef | callSite | loadConstant | loadConstantWide
  | arrayType =>
    obtain rfl := Option.some.inj hsize
    -- Both sides become conditions on the same bytes, the reader's one byte or pair at a time.
    simp only [readOperand, operandAt, bind_eq_ok_iff, pure_eq_ok_iff, lift_eq_ok_iff,
      u1_eq_ok_iff, u2_eq_ok_iff, skip_eq_ok_iff, map_eq_ok_iff, byte_eq_some_iff,
      Except.ok.injEq, and_assoc, exists_and_left, exists_eq_left, exists_const]
    grind

theorem lengthAt?_tableSwitch (hop : code[pc]? = some 0xaa) :
    lengthAt? code pc = some n ↔
      ∃ low, int32At? code (pc + 1 + switchPadding pc + 4) = some low ∧
        ∃ high, int32At? code (pc + 1 + switchPadding pc + 8) = some high ∧ low ≤ high ∧
          1 + switchPadding pc + 12 + 4 * (high - low + 1).toNat = n := by
  simp [lengthAt?, hop, switchPadding, Option.bind_eq_some_iff]

theorem readsOver_tableSwitch (hop : code[pc]? = some 0xaa) :
    ReadsOver pool code pc .tableSwitch := by
  intro operand c
  simp only [readOperand, bind_eq_ok_iff, pure_eq_ok_iff, skip_eq_ok_iff, s4_eq_ok_iff, and_assoc,
    exists_and_left, exists_eq_left, exists_const, unless_eq_ok_iff, lengthAt?_tableSwitch hop]
  constructor
  · rintro ⟨-, -, low, hlow, high, hhigh, hle, htargets, rfl, rfl⟩
    have hbound := int32At?_bound hhigh
    refine ⟨_, ⟨low, hlow, high, hhigh, Int.not_lt.mp hle, rfl⟩, by omega, rfl, ?_⟩
    congr 1
    omega
  · rintro ⟨n, ⟨low, hlow, high, hhigh, hle, rfl⟩, hend, hoperand, rfl⟩
    refine ⟨by omega, by omega, low, hlow, high, hhigh, Int.not_lt.mpr hle, by omega,
      (Except.ok.inj hoperand).symm, ?_⟩
    congr 1
    omega

theorem lengthAt?_lookupSwitch (hop : code[pc]? = some 0xab) :
    lengthAt? code pc = some n ↔
      ∃ pairs, int32At? code (pc + 1 + switchPadding pc + 4) = some pairs ∧ 0 ≤ pairs ∧
        1 + switchPadding pc + 8 + 8 * pairs.toNat = n := by
  simp [lengthAt?, hop, switchPadding, Option.bind_eq_some_iff]

theorem readsOver_lookupSwitch (hop : code[pc]? = some 0xab) :
    ReadsOver pool code pc .lookupSwitch := by
  intro operand c
  simp only [readOperand, bind_eq_ok_iff, pure_eq_ok_iff, skip_eq_ok_iff, s4_eq_ok_iff, and_assoc,
    exists_and_left, exists_eq_left, exists_const, unless_eq_ok_iff, lengthAt?_lookupSwitch hop]
  constructor
  · rintro ⟨-, -, pairs, hpairs, hle, htargets, rfl, rfl⟩
    have hbound := int32At?_bound hpairs
    refine ⟨_, ⟨pairs, hpairs, Int.not_lt.mp hle, rfl⟩, by omega, rfl, ?_⟩
    congr 1
    omega
  · rintro ⟨n, ⟨pairs, hpairs, hle, rfl⟩, hend, hoperand, rfl⟩
    refine ⟨by omega, by omega, pairs, hpairs, Int.not_lt.mpr hle, by omega,
      (Except.ok.inj hoperand).symm, ?_⟩
    congr 1
    omega

theorem lengthAt?_wide (hop : code[pc]? = some 0xc4) :
    lengthAt? code pc = some n ↔
      ∃ b, code[pc + 1]? = some b ∧ (2 + if (⟨b⟩ : Opcode) = .iinc then 4 else 2) = n := by
  have hiinc (b : UInt8) : (⟨b⟩ : Opcode) = .iinc ↔ b = 0x84 := by
    rw [Opcode.iinc, Opcode.mk.injEq]
  have hlength : lengthAt? code pc =
      code[pc + 1]?.bind fun b => some (if b = 0x84 then 6 else 4) := by
    simp [lengthAt?, hop]
  simp only [hlength, hiinc, Option.bind_eq_some_iff, Option.some.injEq]
  refine exists_congr fun b => and_congr_right fun _ => ?_
  split
  · exact Iff.rfl
  · exact Iff.rfl

theorem readsOver_wide (hop : code[pc]? = some 0xc4) : ReadsOver pool code pc .wide := by
  intro operand c
  simp only [readOperand, bind_eq_ok_iff, pure_eq_ok_iff, skip_eq_ok_iff, u1_eq_ok_iff, and_assoc,
    exists_and_left, exists_eq_left, exists_const, lengthAt?_wide hop]
  constructor
  · rintro ⟨b, hb, hskip, rfl, rfl⟩
    have hbound := (List.getElem?_eq_some_iff.mp hb).1
    refine ⟨_, ⟨b, hb, rfl⟩, by omega, rfl, ?_⟩
    congr 1
    omega
  · rintro ⟨n, ⟨b, hb, rfl⟩, hend, hoperand, rfl⟩
    refine ⟨b, hb, by omega, (Except.ok.inj hoperand).symm, ?_⟩
    congr 1
    omega

theorem readsOver {op : UInt8} {shape : OperandShape} (hop : code[pc]? = some op)
    (hshape : Opcode.shape? ⟨op⟩ = some shape) : ReadsOver pool code pc shape := by
  obtain ⟨hsize, htable, hlookup, hwide⟩ := Opcode.tables_agree ⟨op⟩
  rw [hshape] at hsize htable hlookup hwide
  cases hfixed : shape.size? with
  | some size => exact readsOver_of_size hop (hsize.trans hfixed) hfixed
  | none =>
    cases shape with
    | tableSwitch => exact readsOver_tableSwitch (hop.trans (congrArg some (htable.mp rfl)))
    | lookupSwitch => exact readsOver_lookupSwitch (hop.trans (congrArg some (hlookup.mp rfl)))
    | wide => exact readsOver_wide (hop.trans (congrArg some (hwide.mp rfl)))
    | _ => nomatch hfixed

end Operand

/-! ### Whole code arrays -/

section Array

variable {pool : ConstantPool} {code : List UInt8}

/-- The instruction and its length are those at its offset. -/
structure StandsAt (pool : ConstantPool) (code : List UInt8) (i : Instruction) (n : Nat) :
    Prop where
  opcode : code[i.offset]? = some i.opcode.code
  length : lengthAt? code i.offset = some n
  le : i.offset + n ≤ code.length
  resolved : i.Resolved pool code

theorem read_eq_ok_iff {c : Cursor} :
    read pool (.before code pc) = .ok (i, c) ↔
      i.offset = pc ∧ ∃ n, StandsAt pool code i n ∧ c = .before code (pc + n) := by
  have hoffset : Reader.offset (.before code pc) = .ok (pc, .before code pc) := rfl
  unfold read
  simp only [bind_eq_ok_iff, hoffset, u1_eq_ok_iff, Except.ok.injEq, Prod.mk.injEq, and_assoc,
    exists_and_left, exists_eq_left', exists_eq_left]
  constructor
  · rintro ⟨op, hop, h⟩
    cases hshape : Opcode.shape? ⟨op⟩ with
    | none =>
      rw [hshape] at h
      nomatch h
    | some shape =>
      simp only [hshape, bind_eq_ok_iff, inside_eq_ok_iff, pure_eq_ok_iff] at h
      obtain ⟨operand, c', hread, rfl, rfl⟩ := h
      obtain ⟨n, hlength, hle, hoperand, rfl⟩ := (readsOver hop hshape operand c).mp hread
      exact ⟨rfl, n, ⟨hop, hlength, hle, shape, hshape, hoperand⟩, rfl⟩
  · rintro ⟨rfl, n, h, rfl⟩
    obtain ⟨shape, hshape, hoperand⟩ := h.resolved
    have hread := (readsOver h.opcode hshape i.operand _).mpr ⟨n, h.length, h.le, hoperand, rfl⟩
    refine ⟨i.opcode.code, h.opcode, ?_⟩
    simp only [hshape, bind_eq_ok_iff, inside_eq_ok_iff, pure_eq_ok_iff]
    exact ⟨i.operand, _, hread, rfl, rfl⟩

/-- Instructions that fill a code array from an offset to its end. -/
inductive FillsFrom (pool : ConstantPool) (code : List UInt8) : Nat → List Instruction → Prop where
  | done : FillsFrom pool code code.length []
  | next {i : Instruction} {n : Nat} {rest : List Instruction} :
      StandsAt pool code i n → FillsFrom pool code (i.offset + n) rest →
      FillsFrom pool code i.offset (i :: rest)

theorem lengthAt?_pos (h : lengthAt? code pc = some n) : 0 < n := by
  unfold lengthAt? at h
  simp only [Option.bind_eq_bind, Option.bind_eq_some_iff] at h
  obtain ⟨op, -, h⟩ := h
  split at h
  · simp only [Option.bind_eq_some_iff, Option.ite_none_right_eq_some, Option.some.injEq] at h
    obtain ⟨low, -, high, -, -, rfl⟩ := h
    omega
  split at h
  · simp only [Option.bind_eq_some_iff, Option.ite_none_right_eq_some, Option.some.injEq] at h
    obtain ⟨pairs, -, -, rfl⟩ := h
    omega
  split at h
  · simp only [Option.bind_eq_some_iff, Option.some.injEq] at h
    obtain ⟨b, -, rfl⟩ := h
    split
    · omega
    · omega
  · simp only [Option.bind_eq_some_iff, Option.some.injEq] at h
    obtain ⟨size, -, rfl⟩ := h
    omega

theorem fillsFrom_end : FillsFrom pool code code.length is ↔ is = [] := by
  constructor
  · intro h
    generalize hpc : code.length = pc at h
    cases h with
    | done => rfl
    | next hstands _ =>
      have hpos := lengthAt?_pos hstands.length
      have hle := hstands.le
      omega
  · rintro rfl
    exact .done

theorem fillsFrom_cons {rest : List Instruction} :
    FillsFrom pool code pc (i :: rest) ↔
      i.offset = pc ∧ ∃ n, StandsAt pool code i n ∧ FillsFrom pool code (pc + n) rest := by
  constructor
  · intro h
    cases h with
    | next hstands hrest => exact ⟨rfl, _, hstands, hrest⟩
  · rintro ⟨rfl, n, hstands, hrest⟩
    exact .next hstands hrest

/-- The loop over a code array stops at its end. -/
theorem untilEnd_go_end (fuel : Nat) (done : List Instruction) :
    untilEnd.go (read pool) fuel done (.before code code.length) =
      .ok (done.reverse, .before code code.length) := by
  have hrest : (Cursor.before code code.length).rest.isEmpty = true := by
    simp [Cursor.before]
  cases fuel with
  | zero => rfl
  | succ fuel =>
    show (if (Cursor.before code code.length).rest.isEmpty then _ else _ : Reader _) _ = _
    rw [hrest]
    rfl

theorem untilEnd_go_of_lt (hpc : pc < code.length) (fuel : Nat) (done : List Instruction) :
    untilEnd.go (read pool) (fuel + 1) done (.before code pc) =
      (read pool >>= fun i => untilEnd.go (read pool) fuel (i :: done)) (.before code pc) := by
  have hrest : (Cursor.before code pc).rest.isEmpty = false := by
    simp [Cursor.before, hpc]
  show (if (Cursor.before code pc).rest.isEmpty then _ else _ : Reader _) _ = _
  rw [hrest]
  rfl

theorem untilEnd_go_eq_ok_iff {fuel : Nat} (hpc : pc ≤ code.length)
    (hfuel : code.length - pc ≤ fuel) {done : List Instruction} :
    (∃ c, untilEnd.go (read pool) fuel done (.before code pc) = .ok (is, c)) ↔
      ∃ rest, is = done.reverse ++ rest ∧ FillsFrom pool code pc rest := by
  have hend (fuel : Nat) (done : List Instruction) :
      (∃ c, untilEnd.go (read pool) fuel done (.before code code.length) = .ok (is, c)) ↔
        ∃ rest, is = done.reverse ++ rest ∧ FillsFrom pool code code.length rest := by
    simp [untilEnd_go_end, fillsFrom_end, eq_comm]
  -- There is fuel for every byte left, so that it does not run out before the bytes do.
  induction fuel generalizing pc done with
  | zero =>
    obtain rfl : pc = code.length := by omega
    exact hend 0 done
  | succ fuel ih =>
    by_cases hlt : pc = code.length
    · subst hlt
      exact hend _ done
    simp only [untilEnd_go_of_lt (Nat.lt_of_le_of_ne hpc hlt), bind_eq_ok_iff, read_eq_ok_iff]
    -- An instruction has a byte at least, so that the fuel lasts for those behind it.
    have hnext {i : Instruction} {n : Nat} (hi : i.offset = pc) (h : StandsAt pool code i n) :
        pc + n ≤ code.length ∧ code.length - (pc + n) ≤ fuel := by
      have hpos := lengthAt?_pos h.length
      have hle := h.le
      omega
    constructor
    · rintro ⟨c, i, c', ⟨hi, n, hstands, rfl⟩, hrun⟩
      obtain ⟨hle, hleft⟩ := hnext hi hstands
      obtain ⟨rest, rfl, hfills⟩ := (ih hle hleft).mp ⟨c, hrun⟩
      exact ⟨i :: rest, by simp, fillsFrom_cons.mpr ⟨hi, n, hstands, hfills⟩⟩
    · rintro ⟨rest, rfl, hfills⟩
      cases hfills with
      | done => exact absurd rfl hlt
      | @next i n rest hstands hrest =>
        obtain ⟨hle, hleft⟩ := hnext rfl hstands
        have hsplit : done.reverse ++ i :: rest = (i :: done).reverse ++ rest := by simp
        obtain ⟨c, hrun⟩ := (ih hle hleft).mpr ⟨rest, hsplit, hrest⟩
        exact ⟨c, i, _, ⟨rfl, n, hstands, rfl⟩, hrun⟩

theorem readAll_eq_ok_iff : readAll pool code = .ok is ↔ FillsFrom pool code 0 is := by
  have hgo : (∃ c, untilEnd.go (read pool) code.length [] (.before code 0) = .ok (is, c)) ↔
      ∃ rest, is = [] ++ rest ∧ FillsFrom pool code 0 rest :=
    untilEnd_go_eq_ok_iff (Nat.zero_le _) (Nat.le_refl _)
  simp only [List.nil_append, exists_eq_left'] at hgo
  rw [← hgo]
  show (untilEnd.go (read pool) code.length [] (.before code 0)).map Prod.fst = _ ↔ _
  rw [map_eq_ok_iff]
  simp

theorem FillsFrom.le (h : FillsFrom pool code pc is) : pc ≤ code.length := by
  cases h with
  | done => exact Nat.le_refl _
  | next hstands _ =>
    have hle := hstands.le
    omega

theorem StandsAt.nextOffset?_eq (h : StandsAt pool code i n) :
    nextOffset? code i = some (i.offset + n) := by
  rw [nextOffset?, h.length]
  rfl

/-- Filling a code array is a matter of neighbours, of the two ends and of each instruction. -/
theorem fillsFrom_iff :
    FillsFrom pool code pc is ↔
      (is = [] → pc = code.length) ∧ (∀ i ∈ is.head?, i.offset = pc) ∧
      (is.IsChain fun i j => nextOffset? code i = some j.offset) ∧
      (∀ i ∈ is.getLast?, nextOffset? code i = some code.length) ∧
      ∀ i ∈ is, code[i.offset]? = some i.opcode.code ∧ i.Resolved pool code := by
  induction is generalizing pc with
  | nil =>
    constructor
    · intro h
      cases h
      simp
    · rintro ⟨hpc, -⟩
      rw [hpc rfl]
      exact .done
  | cons i rest ih =>
    rw [fillsFrom_cons, List.isChain_cons, List.forall_mem_cons]
    constructor
    · rintro ⟨hi, n, hstands, hrest⟩
      obtain ⟨hnil, hhead, hchain, hlast, hall⟩ := ih.mp hrest
      have hend := hstands.nextOffset?_eq
      rw [hi] at hend
      refine ⟨by simp, by simpa using hi, ⟨fun j hj => ?_, hchain⟩, ?_, ?_, hall⟩
      · rw [hend, hhead j hj]
      · -- This instruction is the last one only if none follows.
        cases rest with
        | nil => simpa [hnil rfl] using hend
        | cons j rest => exact hlast
      · exact ⟨hstands.opcode, hstands.resolved⟩
    · rintro ⟨-, hhead, ⟨hnext, hchain⟩, hlast, ⟨hop, hresolved⟩, hall⟩
      have hi : i.offset = pc := by simpa using hhead
      -- The instruction ends where the next one starts, or with the code array.
      obtain ⟨k, hend, hrest⟩ : ∃ k, nextOffset? code i = some k ∧ FillsFrom pool code k rest := by
        cases rest with
        | nil => exact ⟨code.length, by simpa using hlast, .done⟩
        | cons j rest =>
          exact ⟨j.offset, hnext j rfl, ih.mpr ⟨by simp, by simp, hchain, hlast, hall⟩⟩
      obtain ⟨n, hlength, rfl⟩ := Option.map_eq_some_iff.mp hend
      refine ⟨hi, n, ⟨hop, hlength, hrest.le, hresolved⟩, ?_⟩
      rwa [← hi]

/-- **Instructions tile a code array.** A code array is read as instructions exactly if these lie
    side by side in it: the first one starts with the array (there is none exactly if the array is
    empty), the opcode of each is the byte at its offset, each ends by its length where the next one
    starts, and the last one ends with the array; and if each has the operand that its bytes name in
    the pool. -/
theorem readAll_iff_tiles (pool : ConstantPool) (code : List UInt8)
    (instructions : List Instruction) :
    readAll pool code = .ok instructions ↔
      Tiles code instructions ∧ ∀ i ∈ instructions, i.Resolved pool code := by
  rw [readAll_eq_ok_iff, fillsFrom_iff]
  constructor
  · rintro ⟨hnil, hfirst, hnext, hlast, hall⟩
    refine ⟨⟨⟨fun h => ?_, fun h => ?_⟩, hfirst, fun i hi => (hall i hi).1, hnext, hlast⟩,
      fun i hi => (hall i hi).2⟩
    · exact List.eq_nil_of_length_eq_zero (hnil h).symm
    · subst h
      exact List.eq_nil_iff_forall_not_mem.mpr fun i hi => (nomatch (hall i hi).1)
  · rintro ⟨htiles, hresolved⟩
    refine ⟨fun h => ?_, htiles.first, htiles.next, htiles.last,
      fun i hi => ⟨htiles.opcode i hi, hresolved i hi⟩⟩
    rw [htiles.nil_iff.mp h]
    rfl

end Array

end Instruction

end ClassAudit
