import ClassAudit.Proofs.ClassFile.Event
import ClassAudit.Proofs.ClassFile.LocalVariable
import ClassAudit.Proofs.Assembly.Attributes

/-! # Code, assembled and read

    Every item of a method body moves the next one by as many bytes as it writes, so that the
    offsets of the items are where the reader finds their instructions. Items that are no
    instruction write nothing into the code array; their rows are read back from the tables behind
    it.
-/

namespace ClassAudit.Assembly

open Reader (Reads ReadsEach)

variable {pool : ConstantPool}
variable {op : UInt8} {pc s : Nat} {bytes body : List UInt8} {name : String} {row : Code.LocalRow}

/-! ### Instructions -/

theorem reads_instruction {shape : OperandShape} {operand : Operand}
    (hshape : Opcode.shape? ⟨op⟩ = some shape)
    (h : Reads (pc + 1) (Instruction.readOperand pool pc shape) bytes operand) :
    Reads pc (Instruction.read pool) (op :: bytes) ⟨pc, ⟨op⟩, operand⟩ := by
  refine (Reads.offset_eq pc).bind ((Reads.u1 pc op).bind ?_)
  simp only [hshape]
  exact (h.inside _).map fun operand => (⟨pc, ⟨op⟩, operand⟩ : Instruction)

theorem RawOperands.reads {shape : OperandShape} (h : RawOperands pc shape bytes) (offset : Nat) :
    Reads offset (Instruction.readOperand pool pc shape) bytes .nothing := by
  cases h with
  | plain hlen => exact Reads.skip_pure offset hlen _
  | wideIncrement hlen => exact (Reads.u1 offset _).bind (Reads.skip_pure _ hlen _)
  | @wide op bytes hop hlen =>
    refine (Reads.u1 offset op).bind (Reads.skip_pure _ ?_ _)
    rw [if_neg fun h => hop (congrArg Opcode.code h)]
    exact hlen
  | tableSwitch hfilling hotherwise hlow hhigh hle htargets =>
    refine (Reads.skip_of_length offset hfilling).bind ?_
    refine (Reads.skip_of_length _ hotherwise).bind ?_
    refine (Reads.s4 _ hlow.1 hlow.2).bind ((Reads.s4 _ hhigh.1 hhigh.2).bind ?_)
    rw [if_neg (Int.not_lt.mpr hle)]
    exact Reads.skip_pure _ htargets _
  | @lookupSwitch filling otherwise pairs count hfilling hotherwise hcount hpairs =>
    refine (Reads.skip_of_length offset hfilling).bind ?_
    refine (Reads.skip_of_length _ hotherwise).bind ?_
    have hread : Reads (offset + filling.length + otherwise.length) Reader.s4 (u4 count) count :=
      Reads.s4 _ (by omega) (by omega)
    refine hread.bind ?_
    rw [if_neg (by omega)]
    exact Reads.skip_pure _ hpairs _

/-! ### Items -/

theorem padding_eq (pc : Nat) : CodeItem.padding pc = Instruction.switchPadding pc := by
  unfold CodeItem.padding Instruction.switchPadding
  -- Where nothing is negative, both kinds of remainder are the same.
  have hpos : 0 ≤ (pc : Int) + 1 := by omega
  rw [Int.tmod_eq_emod_of_nonneg hpos, Int.tmod_eq_emod_of_nonneg (by omega)]
  omega

theorem tableCount_eq {low high : Int} (h : low ≤ high) (h' : high - low + 1 < 2147483648) :
    CodeItem.tableCount low high = high - low + 1 := by
  unfold CodeItem.tableCount
  rw [Int.bmod_def]
  omega

/-- The bytes at `pc` are read as the instruction of the item, if it is one. A code array of
    2 ^ 32 bytes or more cannot be written. -/
def ReadsItem (pool : ConstantPool) (pc : Nat) (item : CodeItem) (bytes : List UInt8) : Prop :=
  bytes.length < 4294967296 →
    ReadsEach (Instruction.read pool) pc bytes (item.instruction? pc).toList

theorem readsItem (shape : OperandShape) {item : CodeItem} {operand : Operand}
    (hshape : Opcode.shape? ⟨op⟩ = some shape)
    (hitem : item.instruction? pc = some ⟨pc, ⟨op⟩, operand⟩)
    (h : Reads (pc + 1) (Instruction.readOperand pool pc shape) bytes operand) :
    ReadsItem pool pc item (op :: bytes) := by
  intro _
  rw [hitem]
  exact .single (reads_instruction hshape h)

theorem shape?_type (h : op ∈ [0xbb, 0xbd, 0xc0, 0xc1]) : Opcode.shape? ⟨op⟩ = some .typeRef := by
  simp only [List.mem_cons, List.not_mem_nil, or_false] at h
  rcases h with rfl | rfl | rfl | rfl <;> rfl

theorem shape?_field (h : op ∈ [0xb2, 0xb3, 0xb4, 0xb5]) : Opcode.shape? ⟨op⟩ = some .fieldRef := by
  simp only [List.mem_cons, List.not_mem_nil, or_false] at h
  rcases h with rfl | rfl | rfl | rfl <;> rfl

theorem shape?_invoke (h : op ∈ [0xb6, 0xb7, 0xb8, 0xb9]) (hop : op ≠ CodeItem.invokeInterface) :
    Opcode.shape? ⟨op⟩ = some (.methodRef 0) := by
  simp only [List.mem_cons, List.not_mem_nil, or_false] at h
  rcases h with rfl | rfl | rfl | rfl
  · rfl
  · rfl
  · rfl
  · exact absurd rfl hop

/-- The operand of an instruction that calls a method. -/
theorem reads_methodRef {owner descriptor : String}
    (h : s < 65536 ∧ pool.methodRef s = .ok ⟨owner, name, descriptor⟩) {n : Nat}
    (hlen : bytes.length = n) (pc offset : Nat) :
    Reads offset (Instruction.readOperand pool pc (.methodRef n)) (u2 s ++ bytes)
      (.member owner name descriptor) :=
  (Reads.u2 offset h.1).bind (Reads.lift_bind h.2 (Reads.skip_pure _ hlen _))

namespace Assembles

theorem invoke (pc : Nat) {owner descriptor : String} (hop : op ∈ [0xb6, 0xb7, 0xb8, 0xb9])
    (h : Encodable owner) (h' : Encodable name) (h'' : Encodable descriptor) :
    Assembles pool ((CodeItem.invoke op owner name descriptor).write pc)
      (ReadsItem pool pc (.invoke op owner name descriptor))
      (fun bytes => (bytes.length : Int) = (CodeItem.invoke op owner name descriptor).size pc) := by
  unfold CodeItem.write CodeItem.size
  by_cases hinterface : op = CodeItem.invokeInterface
  · -- A call of an interface has two more bytes, which are passed over.
    subst hinterface
    simp only [if_true]
    refine (method (by decide) h h' h'').bind fun s _ => .pure rfl fun hs => ?_
    have hread := reads_methodRef hs (rfl : ([1, 0] : List UInt8).length = 2) pc (pc + 1)
    exact readsItem (.methodRef 2) rfl rfl hread
  · simp only [if_neg hinterface]
    refine (method (by decide) h h' h'').bind fun s _ => .pure rfl fun hs => ?_
    refine readsItem _ (shape?_invoke hop hinterface) rfl ?_
    have hread := reads_methodRef hs (n := 0) (List.length_nil) pc (pc + 1)
    rwa [List.append_nil] at hread

theorem tableSwitch (pc : Nat) {low high : Int} (hlow : IsS4 low) (hhigh : IsS4 high)
    (hle : low ≤ high) (hcount : high - low + 1 < 2147483648) :
    Assembles pool ((CodeItem.tableSwitch low high).write pc)
      (ReadsItem pool pc (.tableSwitch low high))
      (fun bytes => (bytes.length : Int) = (CodeItem.tableSwitch low high).size pc) := by
  have htargets (target : Int) :
      (List.replicate (high - low + 1).toNat (u4 target)).flatten.length =
        (high - low + 1).toNat * 4 := by
    simp
  unfold CodeItem.write
  simp only [List.cons_append, List.append_assoc, tableCount_eq hle hcount]
  refine .pure ?_ (readsItem .tableSwitch rfl rfl (RawOperands.reads (.tableSwitch
    ?_ (length_u4 _) hlow hhigh hle (htargets _)) _))
  · unfold CodeItem.size
    simp only [List.length_cons, List.length_append, List.length_replicate, length_u4, htargets,
      tableCount_eq hle hcount]
    omega
  · rw [List.length_replicate, padding_eq]

theorem lookupSwitch (pc : Nat) (keys : List Int) :
    Assembles pool ((CodeItem.lookupSwitch keys).write pc)
      (ReadsItem pool pc (.lookupSwitch keys))
      (fun bytes => (bytes.length : Int) = (CodeItem.lookupSwitch keys).size pc) := by
  have hpairs (target : Int) :
      (keys.flatMap fun key => u4 key ++ u4 target).length = keys.length * 8 := by
    rw [List.length_flatMap]
    simp
  unfold CodeItem.write
  simp only [List.cons_append, List.append_assoc]
  refine .pure ?_ fun hlen => ?_
  · unfold CodeItem.size
    simp only [List.length_cons, List.length_append, List.length_replicate, length_u4, hpairs]
    omega
  · -- Eight bytes for each key leave room for far fewer than 2 ^ 31 keys.
    have hkeys : keys.length < 2147483648 := by
      simp only [List.length_cons, List.length_append, List.length_replicate, length_u4,
        hpairs] at hlen
      omega
    refine readsItem .lookupSwitch rfl rfl (RawOperands.reads (.lookupSwitch
      ?_ (length_u4 _) hkeys (hpairs _)) _) hlen
    rw [List.length_replicate, padding_eq]

/-- What an item writes is as long as it says, and is read as its instruction. -/
theorem item (pc : Nat) {item : CodeItem} (hfits : item.Fits) (hcomplete : item.Complete pc) :
    Assembles pool (item.write pc) (ReadsItem pool pc item)
      (fun bytes => (bytes.length : Int) = item.size pc) := by
  cases item with
  | plain op operands =>
    obtain ⟨shape, hshape, hraw⟩ := hcomplete
    refine .pure ?_ (readsItem shape hshape rfl (hraw.reads _))
    simp [CodeItem.size, Int.add_comm]
  | type op name =>
    refine (classInfo hfits).bind fun s _ => .pure rfl fun hs => ?_
    refine readsItem _ (shape?_type hcomplete) rfl ?_
    exact (Reads.u2 _ hs.lt).bind_nil (Reads.lift_bind hs.className (Reads.pure _ _))
  | field op owner name descriptor =>
    refine (field hfits.1 hfits.2.1 hfits.2.2).bind fun s _ => .pure rfl fun hs => ?_
    refine readsItem _ (shape?_field hcomplete) rfl ?_
    exact (Reads.u2 _ hs.1).bind_nil (Reads.lift_bind hs.2 (Reads.pure _ _))
  | invoke op owner name descriptor =>
    exact invoke pc hcomplete hfits.1 hfits.2.1 hfits.2.2
  | invokeDynamic name descriptor =>
    refine (invokeDynamic hfits.1 hfits.2).bind fun s _ => .pure rfl fun hs => ?_
    refine readsItem .callSite rfl rfl ?_
    exact (Reads.u2 _ hs.1).bind (Reads.lift_bind hs.2 (Reads.skip_pure _ (length_u2 0) _))
  | loadClass name =>
    refine (classInfo hfits).bind fun s _ => .pure rfl fun hs => ?_
    refine readsItem .loadConstantWide rfl rfl ?_
    exact (Reads.u2 _ hs.lt).bind_nil (Reads.lift _ hs.loaded)
  | loadString value =>
    refine (string hfits).bind fun s _ => .pure rfl fun hs => ?_
    refine readsItem .loadConstant rfl rfl ?_
    refine (Reads.u1 _ _).bind_nil (Reads.lift _ ?_)
    rw [toNat_byte hs.lt, hs.loaded]
  | loadLong value =>
    refine (long value).bind fun s _ => .pure rfl fun hs => ?_
    refine readsItem .loadConstantWide rfl rfl ?_
    exact (Reads.u2 _ hs.lt).bind_nil (Reads.lift _ hs.loaded)
  | loadMethodType descriptor =>
    refine (methodType hfits).bind fun s _ => .pure rfl fun hs => ?_
    refine readsItem .loadConstantWide rfl rfl ?_
    exact (Reads.u2 _ hs.lt).bind_nil (Reads.lift _ hs.loaded)
  | newArray descriptor dims =>
    refine (classInfo hfits).bind fun s _ => .pure rfl fun hs => ?_
    refine readsItem .arrayType rfl rfl ?_
    refine (Reads.u2 _ hs.lt).bind (Reads.lift_bind hs.className ?_)
    exact (Reads.u1 _ dims).bind_nil (Reads.pure _ _)
  | tableSwitch low high =>
    exact tableSwitch pc hfits.1 hfits.2 hcomplete.1 hcomplete.2
  | lookupSwitch keys => exact lookupSwitch pc keys
  | line number => exact .pure rfl fun _ => .nil pc
  | catchBlock startPc endPc handlerPc caught => exact .pure rfl fun _ => .nil pc
  | localVariable name descriptor signature index => exact .pure rfl fun _ => .nil pc

end Assembles

/-! ### Code arrays -/

theorem mem_of_mem_placed {pc : Int} {code : Code} {x : Int × CodeItem}
    (h : x ∈ Code.placed pc code) : x.2 ∈ code := by
  induction code generalizing pc with
  | nil => simp [Code.placed] at h
  | cons item code ih =>
    rcases List.mem_cons.mp h with rfl | hmem
    · exact List.mem_cons_self
    · exact List.mem_cons_of_mem _ (ih hmem)

theorem Code.instructionsFrom_cons (pc : Int) (item : CodeItem) (code : Code) :
    Code.instructionsFrom pc (item :: code) =
      (item.instruction? pc).toList ++ Code.instructionsFrom (pc + item.size pc) code := by
  show ((pc, item) :: Code.placed (pc + item.size pc) code).filterMap _ = _
  exact filterMap_cons_toList _ _ _

/-- The items of a code array are read one after the other, each where the sizes of those in front
    of it put it. The array ends where the last item does. -/
theorem Assembles.items {code : Code} (pc : Nat) (hfits : ∀ item ∈ code, item.Fits)
    (hcomplete : ∀ x ∈ Code.placed pc code, x.2.Complete x.1) :
    Assembles pool
      (Assembler.each (fun (pc, item) => CodeItem.write pc item) (Code.placed pc code))
      (fun bytes => bytes.length < 4294967296 →
        ReadsEach (Instruction.read pool) pc bytes (Code.instructionsFrom pc code))
      (fun bytes => ((pc + bytes.length : Nat) : Int) =
        code.foldl (fun pc item => pc + item.size pc) (pc : Int)) := by
  induction code generalizing pc with
  | nil => exact .pure rfl fun _ => .nil pc
  | cons first code ih =>
    refine (item pc (hfits first List.mem_cons_self)
      (hcomplete _ List.mem_cons_self)).bind fun bytes hlen => ?_
    -- The size of the first item moves the others to where its bytes end.
    have hnext : (pc : Int) + first.size pc = (pc + bytes.length : Nat) := by
      rw [← hlen, Int.natCast_add]
    have hrest := ih (pc + bytes.length)
      (fun item hitem => hfits item (List.mem_cons_of_mem _ hitem))
      fun x hx => hcomplete x (List.mem_cons_of_mem _ (by rwa [hnext]))
    rw [Code.instructionsFrom_cons, List.foldl_cons, hnext]
    refine hrest.bind fun bytes' hend => .pure ?_ fun hbytes' hbytes hshort => ?_
    · rw [← hend, List.length_append, Nat.add_assoc]
    · rw [List.length_append] at hshort
      exact (hbytes (by omega)).append (hbytes' (by omega))

theorem not_reads_nil (offset : Nat) (i : Instruction) :
    ¬ Reads offset (Instruction.read pool) [] i :=
  fun h => nomatch h []

/-! ### Line and exception tables -/

theorem lineRow_fits {code : Code} (h : code.Fits) {row : Int × Int} (hrow : row ∈ code.lineRows) :
    IsU2 row.1 ∧ IsU2 row.2 := by
  refine ⟨h.linePcs row hrow, ?_⟩
  obtain ⟨x, hx, hline⟩ := List.mem_filterMap.mp hrow
  have hfits := h.items x.2 (mem_of_mem_placed hx)
  obtain ⟨pc, item⟩ := x
  cases item with
  | line number =>
    cases hline
    exact hfits
  | _ => cases hline

theorem catchRow_fits {code : Code} (h : code.Fits) {row : Code.CatchRow}
    (hrow : row ∈ code.catchRows) :
    IsU2 row.startPc ∧ IsU2 row.endPc ∧ IsU2 row.handlerPc ∧ Encodable row.type := by
  obtain ⟨item, hitem, hcatch⟩ := List.mem_filterMap.mp hrow
  have hfits := h.items item hitem
  cases item with
  | catchBlock startPc endPc handlerPc caught =>
    cases hcatch
    exact hfits
  | _ => cases hcatch

theorem localRow_fits {code : Code} (h : code.Fits) (hrow : row ∈ code.localRows) :
    Encodable row.name ∧ Encodable row.descriptor ∧ Encodable row.signature ∧
      IsU2 row.index := by
  obtain ⟨item, hitem, hlocal⟩ := List.mem_filterMap.mp hrow
  have hfits := h.items item hitem
  cases item with
  | localVariable name descriptor signature index =>
    cases hlocal
    exact hfits
  | _ => cases hlocal

theorem reads_catchRow {row : Code.CatchRow} (h : IsU2 row.startPc) (h' : IsU2 row.endPc)
    (h'' : IsU2 row.handlerPc) (hs : s < 65536) (htype : pool.optionalClassName s = .ok row.type)
    (offset : Nat) :
    Reads offset (ClassAudit.Code.readCatch pool)
      (u2 row.startPc ++ u2 row.endPc ++ u2 row.handlerPc ++ u2 s)
      ⟨row.startPc.toNat, row.endPc.toNat, row.handlerPc.toNat, row.type⟩ := by
  rw [List.append_assoc, List.append_assoc]
  refine (Reads.u2_int _ h.1 h.2).bind ((Reads.u2_int _ h'.1 h'.2).bind ?_)
  refine (Reads.u2_int _ h''.1 h''.2).bind ((Reads.u2 _ hs).bind_nil ?_)
  refine Reads.lift_bind (a := row.type) ?_ (Reads.pure _ _)
  rw [htype]
  rfl

theorem ClassSlot.optionalClassName (h : ClassSlot pool name s) :
    pool.optionalClassName s = .ok name := by
  unfold ConstantPool.optionalClassName
  rw [if_neg (Nat.ne_of_gt h.pos), h.className]

theorem Assembles.catchRow {row : Code.CatchRow}
    (h : IsU2 row.startPc ∧ IsU2 row.endPc ∧ IsU2 row.handlerPc ∧ Encodable row.type) :
    Assembles pool row.write fun bytes => ∀ offset, Reads offset (ClassAudit.Code.readCatch pool)
      bytes ⟨row.startPc.toNat, row.endPc.toNat, row.handlerPc.toNat, row.type⟩ := by
  obtain ⟨hstart, hend, hhandler, htype⟩ := h
  unfold Code.CatchRow.write
  by_cases hany : row.type = ""
  · simp only [if_pos hany]
    refine .pure trivial (reads_catchRow hstart hend hhandler (by decide) ?_)
    rw [hany]
    rfl
  · simp only [if_neg hany]
    exact (classInfo htype).map fun s hs =>
      reads_catchRow hstart hend hhandler hs.lt hs.optionalClassName

theorem shows_lineAttribute {code : Code} (h : code.Fits)
    (locals localTypes : List ClassAudit.LocalRow) :
    Shows (ClassAudit.Code.Attributes.add pool) code.lineAttribute ⟨[], locals, localTypes⟩
      ⟨code.described.lines, locals, localTypes⟩ := by
  have hrows : ∀ row ∈ code.lineRows, ∀ offset,
      Reads offset (do return LineEntry.mk (← Reader.u2) (← Reader.u2)) (u2 row.1 ++ u2 row.2)
        ⟨row.1.toNat, row.2.toNat⟩ := by
    intro row hrow offset
    obtain ⟨hpc, hline⟩ := lineRow_fits h hrow
    exact (Reads.u2_int _ hpc.1 hpc.2).bind ((Reads.u2_int _ hline.1 hline.2).map _)
  have hlines := ReadsEach.flatMap hrows 2
  have htable := hlines.table (by rw [List.length_map]; exact h.lines)
  rw [List.length_map] at htable
  have hon := htable.on
  unfold Code.described Code.lineAttribute
  -- An empty table is not written, and none is read.
  cases hnil : code.lineRows with
  | nil => rfl
  | cons row rows =>
    rw [hnil] at hon
    refine .single ?_
    unfold ClassAudit.Code.Attributes.add
    simp only []
    rw [hon]
    rfl

theorem framedSize_table {rowSize count : Nat} (hcount : count ≠ 0)
    (h : body.length = 2 + rowSize * count) :
    framedSize [(name, body)] = Code.tableSize rowSize count := by
  unfold framedSize Code.tableSize
  rw [List.map_singleton, List.sum_singleton, h, if_neg hcount]
  omega

theorem length_lineTable (rows : List (Int × Int)) :
    (u2 rows.length ++ rows.flatMap fun (pc, n) => u2 pc ++ u2 n).length = 2 + 4 * rows.length := by
  rw [List.length_append, List.length_flatMap, length_u2, Nat.mul_comm]
  simp

theorem framed_lineAttribute {code : Code} (h : code.Fits) :
    Framed 1 code.lineAttribute ∧
      framedSize code.lineAttribute = Code.tableSize 4 code.lineRows.length := by
  have hlen := h.lines
  unfold Code.lineAttribute
  cases hrows : code.lineRows with
  | nil => exact ⟨.nil 1, rfl⟩
  | cons row rows =>
    rw [hrows] at hlen
    have hbody := length_lineTable (row :: rows)
    exact ⟨.single (by decide) (by rw [hbody]; omega),
      framedSize_table (Nat.succ_ne_zero _) hbody⟩

/-! ### Local variables -/

/-- The row of a variable in a table that gives `type`. -/
def Code.LocalRow.entry (row : Code.LocalRow) (type : String) : ClassAudit.LocalRow :=
  ⟨row.name, type, row.index.toNat, 0⟩

theorem Assembles.localRow (length : Nat) {type : String} (hname : Encodable row.name)
    (htype : Encodable type) (hindex : IsU2 row.index) :
    Assembles pool (row.write length type) fun bytes => ∀ offset,
      Reads offset (ClassAudit.LocalRow.read pool) bytes (row.entry type) := by
  refine (utf8 hname).bind fun s _ => (utf8 htype).map fun s' hs' hs offset => ?_
  simp only [List.append_assoc]
  refine (Reads.u2_int _ (by decide) (by decide)).bind ((Reads.u2_mod _ _).bind ?_)
  refine (Reads.u2 _ hs.lt).bind ((Reads.u2 _ hs'.lt).bind ?_)
  refine (Reads.u2_int _ hindex.1 hindex.2).bind_nil ?_
  exact Reads.lift_bind hs.utf8 (Reads.lift_bind hs'.utf8 (Reads.pure _ _))

theorem length_localRow (length : Nat) (row : Code.LocalRow) (type : String) (p : Pool) :
    (row.write length type p).1.length = 10 :=
  rfl

theorem Assembles.localTable (length : Nat) {rows : List Code.LocalRow}
    (type : Code.LocalRow → String) (hlen : rows.length < 65536)
    (h : ∀ row ∈ rows, Encodable row.name ∧ Encodable (type row) ∧ IsU2 row.index) :
    Assembles pool (Assembler.table (fun row => row.write length (type row)) rows)
      (fun body => ClassAudit.LocalRow.ofAttribute pool body =
        .ok (rows.map fun row => row.entry (type row)))
      (fun body => body.length = 2 + 10 * rows.length) := by
  refine with_always ?_ fun p => ?_
  · refine (table hlen fun row hrow => ?_).mono (fun _ _ hread => (hread 0).on) fun _ h => h
    exact localRow length (h row hrow).1 (h row hrow).2.1 (h row hrow).2.2
  · exact length_rows (fun row => length_localRow length row (type row)) rows p

theorem shows_localTable {rows : List ClassAudit.LocalRow}
    (h : ClassAudit.LocalRow.ofAttribute pool body = .ok rows) (lines : List LineEntry) :
    Shows (ClassAudit.Code.Attributes.add pool) [("LocalVariableTable", body)] ⟨lines, [], []⟩
      ⟨lines, rows, []⟩ :=
  .single (ClassAudit.Code.Attributes.add_locals h _)

theorem shows_localTypeTable {types : List ClassAudit.LocalRow}
    (h : ClassAudit.LocalRow.ofAttribute pool body = .ok types) (lines : List LineEntry)
    (rows : List ClassAudit.LocalRow) :
    Shows (ClassAudit.Code.Attributes.add pool) [("LocalVariableTypeTable", body)]
      ⟨lines, rows, []⟩ ⟨lines, rows, types⟩ :=
  .single (ClassAudit.Code.Attributes.add_localTypes h _)

/-- Both tables of local variables are read in order. -/
theorem Assembles.localAttributes {code : Code} (h : code.Fits) (length : Nat) :
    Assembles pool (code.localAttributes length)
      (fun attrs => ∀ lines, Shows (ClassAudit.Code.Attributes.add pool) attrs ⟨lines, [], []⟩
        ⟨lines, code.localRows.map fun row => row.entry row.descriptor,
          code.typedRows.map fun row => row.entry row.signature⟩)
      (fun attrs => Framed 2 attrs ∧ framedSize attrs =
        Code.tableSize 10 code.localRows.length + Code.tableSize 10 code.typedRows.length) := by
  have hrows : ∀ row ∈ code.localRows,
      Encodable row.name ∧ Encodable row.descriptor ∧ IsU2 row.index := fun row hrow =>
    have hfits := localRow_fits h hrow
    ⟨hfits.1, hfits.2.1, hfits.2.2.2⟩
  have htyped : ∀ row ∈ code.typedRows,
      Encodable row.name ∧ Encodable row.signature ∧ IsU2 row.index := fun row hrow =>
    have hfits := localRow_fits h (List.mem_of_mem_filter hrow)
    ⟨hfits.1, hfits.2.2.1, hfits.2.2.2⟩
  have htypedLen : code.typedRows.length < 65536 :=
    Nat.lt_of_le_of_lt (List.length_filter_le _ _) h.locals
  have hlen := h.locals
  unfold Code.localAttributes
  unfold Code.typedRows at *
  cases hlocals : code.localRows with
  | nil => exact .pure ⟨.nil 2, rfl⟩ fun lines => rfl
  | cons row rows =>
    rw [hlocals] at hrows htyped htypedLen hlen
    refine (localTable length (fun row => row.descriptor) hlen hrows).bind fun table htable => ?_
    have hframed : Framed 1 [("LocalVariableTable", table)] := .single (by decide) (by omega)
    have hsize : framedSize [("LocalVariableTable", table)] =
        Code.tableSize 10 (row :: rows).length := framedSize_table (Nat.succ_ne_zero _) htable
    -- The second table has the variables with a generic type, if there are any.
    cases htypes : (row :: rows).filter (·.signature ≠ "") with
    | nil =>
      refine .pure ⟨⟨Nat.le_succ_of_le hframed.count, hframed.name, hframed.body⟩, hsize⟩ ?_
      exact fun hread lines => shows_localTable hread lines
    | cons typed types =>
      rw [htypes] at htyped htypedLen
      refine (localTable length (fun row => row.signature) htypedLen htyped).bind ?_
      intro body hbody
      have hsize' : framedSize [("LocalVariableTypeTable", body)] =
          Code.tableSize 10 (typed :: types).length :=
        framedSize_table (Nat.succ_ne_zero _) hbody
      refine .pure ⟨hframed.append (.single (by decide) (by omega)), ?_⟩ fun htypes hread lines => ?_
      · rw [← hsize, ← hsize', ← framedSize_append]
        rfl
      · exact (shows_localTable hread lines).append (shows_localTypeTable htypes lines _)

section merge

variable {rows : List Code.LocalRow} (hslots : (rows.map Code.LocalRow.index).Nodup)
  (hindex : ∀ row ∈ rows, IsU2 row.index)

include hslots hindex

theorem eq_of_slot {row' : Code.LocalRow} (hrow : row ∈ rows) (hrow' : row' ∈ rows)
    (h : row.index.toNat = row'.index.toNat) : row = row' := by
  have hpos := (hindex row hrow).1
  have hpos' := (hindex row' hrow').1
  exact List.inj_on_of_nodup_map hslots hrow hrow' (by omega)

theorem nodup_keys {part : List Code.LocalRow} (hpart : part.Sublist rows)
    (type : Code.LocalRow → String) :
    ((part.map fun row => row.entry (type row)).map ClassAudit.LocalRow.key).Nodup := by
  rw [List.map_map]
  refine List.Nodup.map_on (fun row hrow row' hrow' hkey => ?_) (hslots.of_map.sublist hpart)
  exact eq_of_slot hslots hindex (hpart.subset hrow) (hpart.subset hrow')
    (congrArg Prod.fst hkey)

/-- The table of generic types has a row for every variable whose type is not empty, and no row
    for another. -/
theorem signatureIn_entries (hrow : row ∈ rows) :
    LocalVariable.signatureIn
        ((rows.filter (·.signature ≠ "")).map fun row => row.entry row.signature)
        (row.entry row.descriptor).key = row.signature := by
  unfold LocalVariable.signatureIn
  by_cases hempty : row.signature = ""
  · -- A row with the same slot would be that of this variable, whose type is empty.
    rw [hempty, List.find?_eq_none.mpr]
    · rfl
    · intro entry hentry hkey
      obtain ⟨row', hmem, rfl⟩ := List.mem_map.mp hentry
      obtain ⟨hrow', htyped⟩ := List.mem_filter.mp hmem
      have hslot : row'.index.toNat = row.index.toNat := congrArg Prod.fst (beq_iff_eq.mp hkey)
      have heq := eq_of_slot hslots hindex hrow' hrow hslot
      exact of_decide_eq_true htyped (heq ▸ hempty)
  · have hmem : row.entry row.signature ∈
        (rows.filter (·.signature ≠ "")).map fun row => row.entry row.signature :=
      List.mem_map_of_mem (f := fun row : Code.LocalRow => row.entry row.signature)
        (List.mem_filter.mpr ⟨hrow, decide_eq_true hempty⟩)
    have hfind := LocalVariable.find?_key_eq
      (nodup_keys hslots hindex List.filter_sublist fun row => row.signature) hmem
    -- The key of a row does not depend on which of the two tables it stands in.
    rw [show (row.entry row.descriptor).key = (row.entry row.signature).key from rfl, hfind]
    rfl

theorem merge_entries :
    LocalVariable.merge (rows.map fun row => row.entry row.descriptor)
        ((rows.filter (·.signature ≠ "")).map fun row => row.entry row.signature) =
      rows.map fun row =>
        ⟨row.name, row.descriptor, row.signature, row.index.toNat, 0⟩ := by
  -- Every row of the second table has a partner in the first one, so that none is left over.
  have hpartner : ∀ entry ∈
      (rows.filter (·.signature ≠ "")).map fun row => row.entry row.signature,
      ((rows.map fun row => row.entry row.descriptor).map ClassAudit.LocalRow.key).contains
        entry.key = true := by
    intro entry hentry
    obtain ⟨row, hmem, rfl⟩ := List.mem_map.mp hentry
    rw [List.contains_iff_mem, List.map_map]
    exact List.mem_map_of_mem (f := ClassAudit.LocalRow.key ∘ fun row => row.entry row.descriptor)
      (List.mem_of_mem_filter hmem)
  rw [LocalVariable.merge_eq
    (nodup_keys hslots hindex (List.Sublist.refl _) fun row => row.descriptor)
    (nodup_keys hslots hindex List.filter_sublist fun row => row.signature)]
  rw [List.filter_eq_nil_iff (p := fun row => !_).mpr fun entry hentry => by
    rw [hpartner entry hentry]; decide]
  rw [List.map_nil, List.append_nil, List.map_map]
  refine List.map_congr_left fun row hrow => ?_
  simp only [Function.comp_apply, signatureIn_entries hslots hindex hrow]
  rfl

end merge

/-! ### Method bodies -/

theorem reads_code {code : Code} (hfits : code.Fits) {bytecode catches attrs : List UInt8}
    {locals : List (String × List UInt8)} (hshort : bytecode.length < 4294967296)
    (hcode : ReadsEach (Instruction.read pool) 0 bytecode code.described.instructions)
    (hcatches : ∀ offset, Reads offset (Reader.table (ClassAudit.Code.readCatch pool)) catches
      code.described.catches)
    (hlocals : ∀ lines, Shows (ClassAudit.Code.Attributes.add pool) locals ⟨lines, [], []⟩
      ⟨lines, code.localRows.map fun row => row.entry row.descriptor,
        code.typedRows.map fun row => row.entry row.signature⟩)
    (hattrs : ∀ (σ : Type) (add : σ → String → List UInt8 → Except Malformed σ) (s s' : σ)
      (offset : Nat), Shows add (code.lineAttribute ++ locals) s s' →
      Reads offset (Attribute.foldTable pool add s) attrs s') :
    Reads 0 (ClassAudit.Code.read pool)
      (u2 8 ++ u2 8 ++ (u4 bytecode.length ++ (bytecode ++ (catches ++ attrs))))
      code.described := by
  have hall : Instruction.readAll pool bytecode = .ok code.described.instructions :=
    hcode.untilEnd not_reads_nil
  have hshows := Shows.append (shows_lineAttribute hfits [] []) (hlocals _)
  have hmerge : LocalVariable.merge (code.localRows.map fun row => row.entry row.descriptor)
      (code.typedRows.map fun row => row.entry row.signature) = code.described.locals :=
    merge_entries hfits.slots fun row hrow => (localRow_fits hfits hrow).2.2.2
  refine (Reads.skip 0 (u2 8 ++ u2 8)).bind ((Reads.u4 _ hshort).bind ?_)
  refine (Reads.bytes _ bytecode).bind (Reads.lift_bind hall ((hcatches _).bind ?_))
  refine (hattrs _ _ _ _ _ hshows).bind_nil ?_
  rw [ClassAudit.Code.Attributes.localVariables, hmerge]
  exact Reads.pure _ _

theorem length_catchRow (row : Code.CatchRow) (p : Pool) : (row.write p).1.length = 8 := by
  unfold Code.CatchRow.write
  by_cases hany : row.type = ""
  · simp only [if_pos hany]
    rfl
  · simp only [if_neg hany]
    rfl

/-- A method body is as long as its description says, and is read as the code that it describes. -/
theorem Assembles.code {code : Code} (hfits : code.Fits)
    (hcomplete : ∀ x ∈ Code.placed 0 code, x.2.Complete x.1) :
    Assembles pool code.write
      (fun body => (ClassAudit.Code.read pool).on body = .ok code.described)
      (fun body => (body.length : Int) = code.bodySize) := by
  refine (items 0 hfits.items hcomplete).bind fun bytecode hend => ?_
  have hcatches : Assembles pool _ _ fun bytes : List UInt8 =>
      bytes.length = 2 + 8 * code.catchRows.length :=
    with_always (table hfits.catches fun row hrow => catchRow (catchRow_fits hfits hrow))
      (length_rows length_catchRow _)
  refine hcatches.bind fun catches hcatchesLen => ?_
  refine (localAttributes hfits bytecode.length).bind fun locals hlocals => ?_
  obtain ⟨hlines, hlinesLen⟩ := framed_lineAttribute hfits
  have hattrs : Assembles pool _ _ fun attrs : List UInt8 => attrs.length = 2 + _ :=
    with_always (attributes (hlines.append hlocals.1) (by decide)) (length_attributes _)
  refine hattrs.bind fun attrs hattrsLen => ?_
  -- The length of the body is known before the pool is.
  have hsize : ((u2 8 ++ u2 8 ++ u4 bytecode.length ++ bytecode ++ catches ++ attrs).length : Int) =
      code.bodySize := by
    have hpc : (bytecode.length : Int) = code.endPc := by rwa [Nat.zero_add] at hend
    rw [framedSize_append, hlinesLen, hlocals.2] at hattrsLen
    unfold Code.bodySize
    simp only [List.length_append, length_u2, length_u4]
    omega
  refine .pure hsize fun hattrs hlocals hcatches hcode => ?_
  -- The code array is a part of the body, which has room for its length.
  have hshort : bytecode.length < 4294967296 := by
    have htotal := hfits.size
    rw [← hsize] at htotal
    simp only [List.length_append] at htotal
    omega
  have hread := reads_code hfits hshort (hcode hshort) hcatches hlocals hattrs
  rw [← hread.on]
  simp only [List.append_assoc]

end ClassAudit.Assembly
