import ClassAudit.Proofs.ClassFile.PoolLayout

/-! # Indices into a constant pool

    An index names a usable slot or nothing at all. Every lookup starts at an index and goes on to
    the indices that it finds there (`ConstantPool.Visits`); if one of them is 0, lies behind the
    last slot or names an unusable one, the lookup fails. Readers that look up an index fail with
    it: those of instructions, of the exception table and of the header of a class.
-/

namespace ClassAudit

variable {c : Cursor} {start : Nat} {data : List UInt8}

/-! ### Faults -/

def Fails {α : Type} (r : Except Malformed α) : Prop :=
  ∃ e, r = .error e

/-- A fault that names an index: there is no such slot, or it is unusable. -/
def RefusedAt {α : Type} (index : Nat) (r : Except Malformed α) : Prop :=
  ∃ e, r = .error e ∧
    (e.cause = .indexOutOfRange index ∨ ∃ wanted, e.cause = .wrongTag index .unusable wanted)

section

variable {α β : Type} {index : Nat}
variable {r : Except Malformed α}

theorem Fails.map (h : Fails r) (f : α → β) : Fails (r.map f) := by
  obtain ⟨e, rfl⟩ := h
  exact ⟨e, rfl⟩

theorem Fails.of_map {f : α → β} (h : Fails (r.map f)) : Fails r := by
  cases r with
  | error e => exact ⟨e, rfl⟩
  | ok a => exact h.elim fun _ he => (nomatch he)

theorem Fails.bind (h : Fails r) (f : α → Except Malformed β) : Fails (r >>= f) := by
  obtain ⟨e, rfl⟩ := h
  exact ⟨e, rfl⟩

/-- A fault of the second part, if not of the first. -/
theorem Fails.bind_second (r : Except Malformed α) {f : α → Except Malformed β}
    (h : ∀ a, Fails (f a)) : Fails (r >>= f) := by
  cases r with
  | error e => exact ⟨e, rfl⟩
  | ok a => exact h a

theorem RefusedAt.fails (h : RefusedAt index r) : Fails r := by
  obtain ⟨e, he, -⟩ := h
  exact ⟨e, he⟩

theorem RefusedAt.map (h : RefusedAt index r) (f : α → β) : RefusedAt index (r.map f) := by
  obtain ⟨e, rfl, hcause⟩ := h
  exact ⟨e, rfl, hcause⟩

theorem RefusedAt.of_map {f : α → β} (h : RefusedAt index (r.map f)) : RefusedAt index r := by
  cases r with
  | error e =>
    obtain ⟨e', he, hcause⟩ := h
    obtain rfl := Except.error.inj he
    exact ⟨e, rfl, hcause⟩
  | ok a => exact h.elim fun _ he => (nomatch he.1)

theorem RefusedAt.bind (h : RefusedAt index r) (f : α → Except Malformed β) :
    RefusedAt index (r >>= f) := by
  obtain ⟨e, rfl, hcause⟩ := h
  exact ⟨e, rfl, hcause⟩

theorem RefusedAt.locate (h : RefusedAt index r) (part : FilePart) :
    RefusedAt index (part.locate r) := by
  obtain ⟨e, rfl, hcause⟩ := h
  exact ⟨e.inside part, rfl, hcause⟩

theorem RefusedAt.lift (h : RefusedAt index r) (c : Cursor) :
    RefusedAt index ((liftM r : Reader α) c) := by
  obtain ⟨e, rfl, hcause⟩ := h
  exact ⟨e, rfl, hcause⟩

theorem RefusedAt.after {r : Reader α} {f : α → Reader β} {a : α} {c' : Cursor}
    (hr : r c = .ok (a, c')) (h : RefusedAt index (f a c')) : RefusedAt index ((r >>= f) c) := by
  show RefusedAt index (r c >>= fun x => f x.1 x.2)
  rw [hr]
  exact h

theorem RefusedAt.lift_bind (h : RefusedAt index r) (f : α → Reader β) (c : Cursor) :
    RefusedAt index (((liftM r : Reader α) >>= f) c) := by
  obtain ⟨e, rfl, hcause⟩ := h
  exact ⟨e, rfl, hcause⟩

end

/-! ### Lookups and what they visit -/

namespace ConstantPool

/-- Nothing can be named by an index: it is 0, it lies behind the last slot, or its slot is
    unusable. -/
def Unusable (pool : ConstantPool) (index : Nat) : Prop :=
  index = 0 ∨ pool.slots.size ≤ index ∨ pool.slots[index]? = some .unusable

/-- What can be looked up in a pool. -/
inductive Lookup where
  | text
  | className
  | nameAndType
  | field
  | method
  | callSite
  /-- A constant that an instruction loads. -/
  | loaded

namespace Lookup

/-- Look something up and forget it. -/
def run (pool : ConstantPool) (index : Nat) : Lookup → Except Malformed Unit
  | text => (pool.utf8 index).map fun _ => ()
  | className => (pool.className index).map fun _ => ()
  | nameAndType => (pool.nameAndType index).map fun _ => ()
  | field => (pool.fieldRef index).map fun _ => ()
  | method => (pool.methodRef index).map fun _ => ()
  | callSite => (pool.callSite index).map fun _ => ()
  | loaded => (Instruction.loadedOperand pool index).map fun _ => ()

/-- What is looked up next, with the indices that a constant gives. -/
def next : Lookup → Constant → List (Lookup × Nat)
  | className, .classInfo name => [(text, name)]
  | nameAndType, .nameAndType name descriptor => [(text, name), (text, descriptor)]
  | field, .fieldref owner signature => [(className, owner), (nameAndType, signature)]
  | method, .methodref owner signature => [(className, owner), (nameAndType, signature)]
  | method, .interfaceMethodref owner signature => [(className, owner), (nameAndType, signature)]
  | callSite, .invokeDynamic _ signature => [(nameAndType, signature)]
  | loaded, .classInfo name => [(text, name)]
  | loaded, .methodType descriptor => [(text, descriptor)]
  | _, _ => []

end Lookup

/-- A lookup that starts at an index comes by another one. -/
inductive Visits (pool : ConstantPool) : Lookup → (start index : Nat) → Prop where
  | here (k : Lookup) (index : Nat) : Visits pool k index index
  | through {k k' : Lookup} {start start' index : Nat} {c : Constant} :
      pool.slots[start]? = some c → (k', start') ∈ k.next c → Visits pool k' start' index →
      Visits pool k start index

variable {pool : ConstantPool} {index : Nat}

/-- Whatever is wanted, it is not in an unusable slot. -/
theorem refusedAt_lookup {α : Type} {wanted : List Tag} {view : Constant → Option α}
    (h : pool.Unusable index) (hview : view .unusable = none) :
    RefusedAt index (pool.lookup wanted view index) := by
  unfold lookup
  split
  · exact ⟨_, rfl, .inl rfl⟩
  · next hzero =>
    rcases h with hzero' | hsize | hunusable
    · exact absurd hzero' hzero
    · rw [Array.getElem?_eq_none hsize]
      exact ⟨_, rfl, .inl rfl⟩
    · rw [hunusable]
      dsimp only
      rw [hview]
      exact ⟨_, rfl, .inr ⟨wanted, rfl⟩⟩

theorem refusedAt_run (h : pool.Unusable index) (k : Lookup) :
    RefusedAt index (k.run pool index) := by
  cases k with
  | text => exact (refusedAt_lookup h rfl).map _
  | className | nameAndType | field | method | callSite | loaded =>
    -- The constant itself is looked up first.
    exact ((refusedAt_lookup h rfl).bind _).map _

theorem lookup_of_get {α : Type} {wanted : List Tag} {view : Constant → Option α} {c : Constant}
    (hzero : index ≠ 0) (hc : pool.slots[index]? = some c) :
    pool.lookup wanted view index =
      (view c).elim (.error (.ofCause (.wrongTag index c.tag wanted))) .ok := by
  rw [lookup, if_neg hzero, hc]
  cases hview : view c with
  | none => simp only [hview, Option.elim_none]
  | some a => simp only [hview, Option.elim_some]

variable {k : Lookup}

theorem fails_memberRef {owner signature : Nat}
    (hmem : (k, start) ∈ [(Lookup.className, owner), (Lookup.nameAndType, signature)])
    (h : Fails (k.run pool start)) : Fails (pool.memberRef (owner, signature)) := by
  rcases List.mem_cons.mp hmem with hmem | hmem
  · obtain ⟨rfl, rfl⟩ := Prod.mk.inj hmem
    exact h.of_map.bind _
  · obtain ⟨rfl, rfl⟩ := Prod.mk.inj (List.mem_singleton.mp hmem)
    exact Fails.bind_second _ fun _ => h.of_map.bind _

theorem fails_run_of_next {k' : Lookup} {start' : Nat} {c : Constant}
    (hc : pool.slots[start]? = some c) (hnext : (k', start') ∈ k.next c)
    (h : Fails (k'.run pool start')) : Fails (k.run pool start) := by
  by_cases hzero : start = 0
  · exact (refusedAt_run (.inl hzero) k).fails
  unfold Lookup.next at hnext
  split at hnext
  · -- The name of a class.
    obtain ⟨rfl, rfl⟩ := Prod.mk.inj (List.mem_singleton.mp hnext)
    rw [Lookup.run, className, lookup_of_get hzero hc]
    exact h
  · -- A name and a type.
    rename_i name descriptor
    rw [Lookup.run, nameAndType, lookup_of_get hzero hc]
    refine Fails.map ?_ _
    show Fails (pool.utf8 name >>= fun n => pool.utf8 descriptor >>= fun d => pure (n, d))
    rcases List.mem_cons.mp hnext with hnext | hnext
    · obtain ⟨rfl, rfl⟩ := Prod.mk.inj hnext
      exact h.of_map.bind _
    · obtain ⟨rfl, rfl⟩ := Prod.mk.inj (List.mem_singleton.mp hnext)
      exact Fails.bind_second _ fun _ => h.of_map.bind _
  · -- A field.
    rw [Lookup.run, fieldRef, lookup_of_get hzero hc]
    exact (fails_memberRef hnext h).map _
  · -- A method of a class.
    rw [Lookup.run, methodRef, lookup_of_get hzero hc]
    exact (fails_memberRef hnext h).map _
  · -- A method of an interface.
    rw [Lookup.run, methodRef, lookup_of_get hzero hc]
    exact (fails_memberRef hnext h).map _
  · -- A call site.
    obtain ⟨rfl, rfl⟩ := Prod.mk.inj (List.mem_singleton.mp hnext)
    rw [Lookup.run, callSite, lookup_of_get hzero hc]
    exact h
  · -- A class that is loaded.
    obtain ⟨rfl, rfl⟩ := Prod.mk.inj (List.mem_singleton.mp hnext)
    rw [Lookup.run, Instruction.loadedOperand, lookup_of_get hzero hc]
    exact (h.of_map.bind _).map _
  · -- A method type that is loaded.
    obtain ⟨rfl, rfl⟩ := Prod.mk.inj (List.mem_singleton.mp hnext)
    rw [Lookup.run, Instruction.loadedOperand, lookup_of_get hzero hc]
    exact (h.of_map.bind _).map _
  · nomatch hnext

theorem fails_run_of_visits (h : pool.Visits k start index) (hindex : pool.Unusable index) :
    Fails (k.run pool start) := by
  induction h with
  | here k index => exact (refusedAt_run hindex k).fails
  | through hc hnext _ ih => exact fails_run_of_next hc hnext (ih hindex)

end ConstantPool

/-! ### Readers that look an index up -/

/-- The number of two bytes at the front. -/
def firstTwo? : List UInt8 → Option Nat
  | b₁ :: b₀ :: _ => some (b₁.toNat * 256 + b₀.toNat)
  | _ => none

/-- The index that stands behind an opcode, if its shape has one. -/
def OperandShape.index? (bytes : List UInt8) : OperandShape → Option Nat
  | .loadConstant => bytes.head?.map UInt8.toNat
  | .typeRef | .fieldRef | .methodRef _ | .callSite | .loadConstantWide | .arrayType =>
    firstTwo? bytes
  | .plain _ | .tableSwitch | .lookupSwitch | .wide => none

section

variable {pool : ConstantPool} {index offset : Nat} {bytes : List UInt8}

theorem refusedAt_u2 {β : Type} {f : Nat → Reader β} (hindex : firstTwo? bytes = some index)
    (h : ∀ c, RefusedAt index (f index c)) :
    RefusedAt index ((Reader.u2 >>= f) ⟨offset, bytes⟩) := by
  match bytes, hindex with
  | b₁ :: b₀ :: rest, hindex =>
    obtain rfl := Option.some.inj hindex
    exact h ⟨offset + 2, rest⟩

theorem refusedAt_u1 {β : Type} {f : UInt8 → Reader β}
    (hindex : bytes.head?.map UInt8.toNat = some index)
    (h : ∀ b c, b.toNat = index → RefusedAt index (f b c)) :
    RefusedAt index ((Reader.u1 >>= f) ⟨offset, bytes⟩) := by
  match bytes, hindex with
  | b :: rest, hindex => exact h b ⟨offset + 1, rest⟩ (Option.some.inj hindex)

/-- An instruction with an unusable index has no operand. -/
theorem refusedAt_readOperand (h : pool.Unusable index) {shape : OperandShape} (pc : Nat)
    (hindex : shape.index? bytes = some index) :
    RefusedAt index (Instruction.readOperand pool pc shape ⟨offset, bytes⟩) := by
  have hrun (k : ConstantPool.Lookup) := ConstantPool.refusedAt_run h k
  cases shape with
  | plain | tableSwitch | lookupSwitch | wide => nomatch hindex
  | typeRef | arrayType =>
    exact refusedAt_u2 hindex fun c => (hrun .className).of_map.lift_bind _ c
  | fieldRef => exact refusedAt_u2 hindex fun c => (hrun .field).of_map.lift_bind _ c
  | methodRef => exact refusedAt_u2 hindex fun c => (hrun .method).of_map.lift_bind _ c
  | callSite => exact refusedAt_u2 hindex fun c => (hrun .callSite).of_map.lift_bind _ c
  | loadConstantWide => exact refusedAt_u2 hindex fun c => (hrun .loaded).of_map.lift c
  | loadConstant =>
    refine refusedAt_u1 hindex fun b c hb => ?_
    rw [hb]
    exact (hrun .loaded).of_map.lift c

theorem refusedAt_optionalClassName (h : pool.Unusable index) (hzero : index ≠ 0) :
    RefusedAt index (pool.optionalClassName index) := by
  rw [ConstantPool.optionalClassName, if_neg hzero]
  exact (ConstantPool.refusedAt_run h .className).of_map

theorem refusedAt_readCatch (h : pool.Unusable index) (hzero : index ≠ 0) {pcs : List UInt8}
    (hpcs : pcs.length = 6) (hindex : firstTwo? bytes = some index) :
    RefusedAt index (Code.readCatch pool ⟨offset, pcs ++ bytes⟩) := by
  match pcs, hpcs with
  | [a₁, a₀, b₁, b₀, c₁, c₀], _ =>
    refine .after rfl (.after rfl (.after rfl (refusedAt_u2 hindex fun c => ?_)))
    exact ((refusedAt_optionalClassName h hzero).locate .exceptionTable).lift_bind _ c

theorem u4_eq_ok {k n : Nat} (h : Reader.u4 (.before data k) = .ok (n, c)) :
    c = .before data (k + 4) := by
  have hrest : data.drop (k + 4) = (data.drop k).drop 4 := by
    rw [List.drop_drop]
  unfold Reader.u4 at h
  unfold Cursor.before at h ⊢
  rw [hrest]
  split at h
  · next heq =>
    obtain ⟨-, rfl⟩ := Prod.mk.inj (Except.ok.inj h)
    rw [show data.drop k = _ from heq]
    rfl
  · nomatch h

theorem u2_eq_ok {n : Nat} {c' : Cursor} (h : Reader.u2 c = .ok (n, c')) :
    ∃ b₁ b₀ : UInt8, c.rest = b₁ :: b₀ :: c'.rest ∧ n = b₁.toNat * 256 + b₀.toNat := by
  unfold Reader.u2 at h
  split at h
  · next b₁ b₀ rest hrest =>
    obtain ⟨rfl, rfl⟩ := Prod.mk.inj (Except.ok.inj h)
    exact ⟨b₁, b₀, hrest, rfl⟩
  · nomatch h

theorem lift_bind_eq_ok {α β : Type} {e : Except Malformed α} {f : α → Reader β} {x : β × Cursor}
    (h : ((liftM e : Reader α) >>= f) c = .ok x) : ∃ a, e = .ok a ∧ f a c = .ok x := by
  cases e with
  | error e => nomatch h
  | ok a => exact ⟨a, rfl, h⟩

theorem fails_parse_of_superclass (h : pool.Unusable index) (hzero : index ≠ 0)
    (hpool : ConstantPool.read (.before data 8) = .ok (pool, c))
    (hindex : uint16At c.rest 4 = index) : Fails (ClassFile.parse data) := by
  cases hparse : ClassFile.parse data with
  | error e => exact ⟨e, rfl⟩
  | ok cf =>
    exfalso
    have hread := ClassFile.reads_of_parse hparse []
    rw [List.append_nil, ClassFile.read_eq] at hread
    obtain ⟨head, _, hhead, -⟩ := Reader.bind_eq_ok hread
    unfold ClassFile.readHead at hhead
    -- The magic number and the version, which the pool follows.
    obtain ⟨found, _, hfound, hhead⟩ := Reader.bind_eq_ok hhead
    obtain rfl := u4_eq_ok (k := 0) hfound
    obtain ⟨-, hhead⟩ := Reader.unless_eq_ok_iff.mp hhead
    obtain ⟨minor, _, hminor, hhead⟩ := Reader.bind_eq_ok hhead
    obtain ⟨-, -, rfl⟩ := Reader.u2_eq_ok_iff.mp hminor
    obtain ⟨major, _, hmajor, hhead⟩ := Reader.bind_eq_ok hhead
    obtain ⟨-, -, rfl⟩ := Reader.u2_eq_ok_iff.mp hmajor
    obtain ⟨pool', _, hpool', hhead⟩ := Reader.bind_eq_ok hhead
    obtain ⟨rfl, rfl⟩ := Prod.mk.inj (Except.ok.inj (hpool.symm.trans hpool'))
    -- The flags and the class itself, and then its superclass.
    obtain ⟨access, _, haccess, hhead⟩ := Reader.bind_eq_ok hhead
    obtain ⟨this, _, hthis, hhead⟩ := Reader.bind_eq_ok hhead
    obtain ⟨name, -, hhead⟩ := lift_bind_eq_ok hhead
    obtain ⟨slot, _, hslot, hhead⟩ := Reader.bind_eq_ok hhead
    obtain ⟨superName, hsuper, -⟩ := lift_bind_eq_ok hhead
    obtain ⟨_, _, haccess, -⟩ := u2_eq_ok haccess
    obtain ⟨_, _, hthis, -⟩ := u2_eq_ok hthis
    obtain ⟨s₁, s₀, hrest, rfl⟩ := u2_eq_ok hslot
    rw [haccess, hthis, hrest] at hindex
    obtain rfl : s₁.toNat * 256 + s₀.toNat = index := hindex
    obtain ⟨e, he, -⟩ := (refusedAt_optionalClassName h hzero).locate .superClass
    rw [he] at hsuper
    nomatch hsuper

end

/-! ### The discipline of a pool that has been read -/

namespace ConstantPool

/-- Whatever is looked up by an index fails. -/
structure Refuses (pool : ConstantPool) (index : Nat) : Prop where
  /-- A lookup that starts at the index fails, and the fault names the index. -/
  lookup : ∀ k : Lookup, RefusedAt index (k.run pool index)
  /-- A lookup fails that comes by the index on its way. -/
  visit : ∀ k start, pool.Visits k start index → Fails (k.run pool start)
  /-- An instruction that has the index behind its opcode. -/
  operand : ∀ pc shape offset bytes, OperandShape.index? bytes shape = some index →
    RefusedAt index (Instruction.readOperand pool pc shape ⟨offset, bytes⟩)
  /-- A class that may be missing, which index 0 stands for. -/
  optionalClass : index ≠ 0 → RefusedAt index (pool.optionalClassName index)
  /-- A row of an exception table that has the index behind its three offsets. -/
  catchType : index ≠ 0 → ∀ offset pcs bytes, pcs.length = 6 → firstTwo? bytes = some index →
    RefusedAt index (Code.readCatch pool ⟨offset, pcs ++ bytes⟩)
  /-- A class file that has the index for its superclass, behind its pool, its flags and the index of
      the class itself. -/
  superclass : index ≠ 0 → ∀ data c, read (.before data 8) = .ok (pool, c) →
    uint16At c.rest 4 = index → Fails (ClassFile.parse data)

theorem refuses_of_unusable {pool : ConstantPool} {index : Nat} (h : pool.Unusable index) :
    pool.Refuses index where
  lookup := refusedAt_run h
  visit _ _ hvisits := fails_run_of_visits hvisits h
  operand pc _ _ _ hindex := refusedAt_readOperand h pc hindex
  optionalClass := refusedAt_optionalClassName h
  catchType hzero _ _ _ hpcs hindex := refusedAt_readCatch h hzero hpcs hindex
  superclass hzero _ _ hpool hindex := fails_parse_of_superclass h hzero hpool hindex

/-- A constant of two slots that would start in the last one. -/
theorem fails_read_of_wide {offset slot pos : Nat} (hentry : EntryAt data slot pos)
    (hslot : slot + 1 = uint16At data 0) (hwide : data[pos]? = some 5 ∨ data[pos]? = some 6) :
    Fails (read ⟨offset, data⟩) := by
  cases hread : read ⟨offset, data⟩ with
  | error e => exact ⟨e, rfl⟩
  | ok x =>
    exfalso
    have hpool := disciplined_of_read hread
    obtain ⟨c, hc, htag⟩ := hpool.entries slot pos hentry (by omega)
    have hconstant : c = .long ∨ c = .double := by
      obtain ⟨b, hb, hnat⟩ := Option.map_eq_some_iff.mp htag
      rw [hb, Option.some.injEq, Option.some.injEq, Constant.isWide_iff_byte hnat] at hwide
      exact Constant.isWide_iff.mp hwide
    -- Then there would be one slot more.
    have hnext := hpool.afterWide slot c hc hconstant
    have hlt := (Array.getElem?_eq_some_iff.mp hnext).1
    rw [hpool.size] at hlt
    omega

/-- **Indices keep their discipline.** A pool that is read has as many slots as it declares. Slot 0
    and the slot behind each constant of eight bytes are unusable, and every other slot has a
    constant of one of the known kinds, which is the entry that the bytes have for this slot. An
    index that is 0, or not below the number of slots, or that of an unusable slot is refused by
    everything that looks it up. Bytes that have a constant of eight bytes for the last slot are no
    pool. -/
theorem index_discipline (offset : Nat) (data : List UInt8) :
    (∀ pool rest, read ⟨offset, data⟩ = .ok (pool, rest) →
      Disciplined data pool ∧
        ∀ index, index = 0 ∨ uint16At data 0 ≤ index ∨ pool.slots[index]? = some .unusable →
          pool.Refuses index) ∧
      ∀ slot pos, EntryAt data slot pos → slot + 1 = uint16At data 0 →
        data[pos]? = some 5 ∨ data[pos]? = some 6 → Fails (read ⟨offset, data⟩) := by
  refine ⟨fun pool rest hread => ?_, fun slot pos => fails_read_of_wide⟩
  have hpool := disciplined_of_read hread
  refine ⟨hpool, fun index hindex => refuses_of_unusable ?_⟩
  rwa [Unusable, hpool.size]

/-- A text, a long and a class whose name would be in the second slot of the long. -/
def sampleBytes : List UInt8 :=
  [0, 5, 1, 0, 1, 65, 5, 0, 0, 0, 0, 0, 0, 0, 7, 7, 0, 3]

/-- A text and a double that lacks its second slot. -/
def overfullBytes : List UInt8 :=
  [0, 3, 1, 0, 1, 65, 6, 0, 0, 0, 0, 0, 0, 0, 0]

set_option maxRecDepth 1000 in
theorem read_sampleBytes : read ⟨8, sampleBytes⟩ = .ok
    (⟨#[.unusable, .utf8 "A", .long, .unusable, .classInfo 3]⟩, ⟨26, []⟩) := by
  rfl

theorem index_discipline_sample :
    (∃ pool rest, read ⟨8, sampleBytes⟩ = .ok (pool, rest) ∧ pool.slots.size = 5 ∧
      pool.slots[3]? = some .unusable ∧ Fails (pool.className 4) ∧ RefusedAt 3 (pool.utf8 3) ∧
      RefusedAt 5 (pool.optionalClassName 5)) ∧
      Fails (read ⟨8, overfullBytes⟩) := by
  obtain ⟨hread, -⟩ := index_discipline 8 sampleBytes
  obtain ⟨-, hoverfull⟩ := index_discipline 8 overfullBytes
  obtain ⟨hpool, hrefuses⟩ := hread _ _ read_sampleBytes
  have hthree := hrefuses 3 (.inr (.inr rfl))
  have hfive := hrefuses 5 (.inr (.inl (by decide)))
  refine ⟨⟨_, _, read_sampleBytes, hpool.size, rfl, ?_, ?_, ?_⟩, ?_⟩
  · have hfour := hthree.visit .className 4 (.through rfl List.mem_cons_self (.here _ _))
    exact hfour.of_map (f := fun _ => ())
  · exact (hthree.lookup .text).of_map (f := fun _ => ())
  · exact hfive.optionalClass (by decide)
  · have htext : Constant.lengthAt? overfullBytes 2 = some 4 := rfl
    exact hoverfull _ _ (EntryAt.first.next htext) rfl (.inr rfl)

end ConstantPool

end ClassAudit
