import Mathlib.Algebra.GroupWithZero.Nat
import ClassAudit.ClassFile.Attribute
import ClassAudit.ClassFile.Instruction
import ClassAudit.Proofs.Assembly.Pool

/-! # What assemblers promise

    An assembler asks for slots before the pool is finished, and a reader looks into the finished
    pool. `Assembles pool w facts` says that `w` only interns entries, and that its result has
    `facts` once the finished `pool` holds them. Facts of one step stay true in the steps behind
    it, since a pool that holds what was interned later also holds what was interned before:
    `Assembles.bind` is all that a sequence of steps needs.

    Some facts do not depend on the pool, such as the names of attributes. They stand apart, since
    later steps may only intern texts that can be written.
-/

namespace ClassAudit.Assembly

open Reader (Reads ReadsEach)

variable {α β : Type} {pool : ConstantPool}
variable {facts always : α → Prop} {w : Assembler α} {e : Entry}
  {text name descriptor owner : String} {view : α → β} {write : α → Assembler (List UInt8)}
  {xs : List α}

/-- The assembler interns entries, its result has `always`, and it has `facts` in a constant pool
    that holds the entries. -/
def Assembles (pool : ConstantPool) (w : Assembler α) (facts : α → Prop)
    (always : α → Prop := fun _ => True) : Prop :=
  ∀ p : Pool, p.Grows (w p).2 ∧ always (w p).1 ∧ ((w p).2.HeldBy pool → facts (w p).1)

namespace Assembles

/-! ### Sequences of steps -/

theorem pure {a : α} (ha : always a) (h : facts a) : Assembles pool (Pure.pure a) facts always :=
  fun _ => ⟨.refl, ha, fun _ => h⟩

theorem bind {f : α → Assembler β} {facts' always' : β → Prop} (hw : Assembles pool w facts always)
    (hf : ∀ a, always a → Assembles pool (f a) (fun b => facts a → facts' b) always') :
    Assembles pool (w >>= f) facts' always' := by
  intro p
  obtain ⟨hgrow, ha, hfacts⟩ := hw p
  obtain ⟨hgrow', hb, hfacts'⟩ := hf (w p).1 ha (w p).2
  -- What holds the entries of both steps also holds those of the first.
  refine ⟨hgrow.trans hgrow', hb, fun hheld => ?_⟩
  exact hfacts' hheld (hfacts (hgrow'.heldBy hheld))

theorem mono {facts' always' : α → Prop} (hw : Assembles pool w facts always)
    (h : ∀ a, always a → facts a → facts' a) (h' : ∀ a, always a → always' a) :
    Assembles pool w facts' always' := by
  intro p
  obtain ⟨hgrow, ha, hfacts⟩ := hw p
  exact ⟨hgrow, h' _ ha, fun hheld => h _ ha (hfacts hheld)⟩

/-- What holds of the result whatever the pool. -/
theorem with_always (hw : Assembles pool w facts) (h : ∀ p, always (w p).1) :
    Assembles pool w facts always :=
  fun p => ⟨(hw p).1, h p, (hw p).2.2⟩

theorem map {f : α → β} {facts' : β → Prop} (hw : Assembles pool w facts)
    (h : ∀ a, facts a → facts' (f a)) : Assembles pool (w >>= fun a => Pure.pure (f a)) facts' :=
  hw.bind fun a _ => .pure trivial (h a)

/-! ### Slots -/

theorem slot (he : e.Writable) : Assembles pool (Assembler.slot e) (Pool.Holds pool e) :=
  fun p => ⟨.slot e .refl he, trivial, fun hheld => hheld e _ (Pool.mem_slot e p)⟩

end Assembles

namespace Pool.Holds

variable {s : Nat}

theorem lt_65536 (h : Holds pool e s) : s < 65536 :=
  Nat.lt_of_lt_of_le h.lt e.slotBound_le

theorem lookup (h : Holds pool e s) (wanted : List Tag) {view : Constant → Option α} (a : α)
    (hview : view e.constant = some a) : pool.lookup wanted view s = .ok a := by
  unfold ConstantPool.lookup
  rw [if_neg (Nat.ne_of_gt h.pos), h.get]
  simp only [hview]

theorem utf8 (h : Holds pool (.utf8 text) s) : pool.utf8 s = .ok text :=
  h.lookup _ text rfl

theorem loaded (h : Holds pool e s) (tag : Tag) (htag : e.constant.tag = tag)
    (hmem : tag ∈ Instruction.loadable) :
    pool.lookup Instruction.loadable
      (fun c => if c.tag ∈ Instruction.loadable then some c else none) s = .ok e.constant :=
  h.lookup _ _ (if_pos (htag ▸ hmem))

end Pool.Holds

/-! ### Slots of texts and classes -/

/-- A slot by which a text is found. -/
structure TextSlot (pool : ConstantPool) (text : String) (s : Nat) : Prop where
  lt : s < 65536
  utf8 : pool.utf8 s = .ok text

/-- A slot by which a class is found. -/
structure ClassSlot (pool : ConstantPool) (name : String) (s : Nat) : Prop where
  pos : 0 < s
  lt : s < 65536
  className : pool.className s = .ok name
  loaded : Instruction.loadedOperand pool s = .ok (.type name)

/-- A slot that says nothing but what an operand shows when the constant is loaded. -/
structure LoadedSlot (pool : ConstantPool) (bound : Nat) (operand : Operand) (s : Nat) : Prop where
  lt : s < bound
  loaded : Instruction.loadedOperand pool s = .ok operand

namespace Assembles

theorem utf8 (h : Encodable text) : Assembles pool (Assembler.utf8 text) (TextSlot pool text) :=
  (slot (e := .utf8 text) h).mono (fun _ _ hs => ⟨hs.lt_65536, hs.utf8⟩) fun _ h => h

theorem classInfo (h : Encodable name) :
    Assembles pool (Assembler.classInfo name) (ClassSlot pool name) := by
  refine (utf8 h).bind fun t _ => (slot (e := .classInfo t) trivial).mono ?_ fun _ h => h
  intro s _ hs ht
  -- The slot of the name fits in its two bytes.
  have hmod : t % 65536 = t := Nat.mod_eq_of_lt ht.lt
  refine ⟨hs.pos, hs.lt_65536, ?_, ?_⟩
  · unfold ConstantPool.className
    rw [hs.lookup _ (t % 65536) (by rfl)]
    show pool.utf8 (t % 65536) = _
    rw [hmod, ht.utf8]
  · unfold Instruction.loadedOperand
    rw [hs.loaded .classInfo rfl (by decide)]
    show (pool.utf8 (t % 65536) >>= fun name => Pure.pure (Operand.type name)) = _
    rw [hmod, ht.utf8]
    rfl

theorem methodType (h : Encodable descriptor) :
    Assembles pool (Assembler.methodType descriptor)
      (LoadedSlot pool 65536 (.methodType descriptor)) := by
  refine (utf8 h).bind fun t _ => (slot (e := .methodType t) trivial).mono ?_ fun _ h => h
  intro s _ hs ht
  refine ⟨hs.lt_65536, ?_⟩
  unfold Instruction.loadedOperand
  rw [hs.loaded .methodType rfl (by decide)]
  show (pool.utf8 (t % 65536) >>= fun d => Pure.pure (Operand.methodType d)) = _
  rw [Nat.mod_eq_of_lt ht.lt, ht.utf8]
  rfl

/-- A string has a slot of one byte. -/
theorem string (h : Encodable text) :
    Assembles pool (Assembler.string text) (LoadedSlot pool 256 .nothing) := by
  refine (utf8 h).bind fun t _ => (slot (e := .string t) trivial).mono ?_ fun _ h => h
  intro s _ hs _
  refine ⟨hs.lt, ?_⟩
  unfold Instruction.loadedOperand
  rw [hs.loaded .string rfl (by decide)]
  rfl

theorem long (value : Int) :
    Assembles pool (Assembler.long value) (LoadedSlot pool 65536 .nothing) := by
  refine (slot (e := .long value) trivial).mono (fun s _ hs => ⟨hs.lt, ?_⟩) fun _ h => h
  unfold Instruction.loadedOperand
  rw [hs.loaded .long rfl (by decide)]
  rfl

theorem integer (value : Int) : Assembles pool (Assembler.integer value) fun s => s < 65536 :=
  (slot (e := .integer value) trivial).mono (fun _ _ hs => hs.lt) fun _ h => h

/-! ### Slots of members and call sites -/

theorem nameAndType (h : Encodable name) (h' : Encodable descriptor) :
    Assembles pool (Assembler.nameAndType name descriptor) fun s =>
      s < 65536 ∧ pool.nameAndType s = .ok (name, descriptor) := by
  refine (utf8 h).bind fun t _ => (utf8 h').bind fun u _ => ?_
  refine (slot (e := .nameAndType t u) trivial).mono ?_ fun _ h => h
  intro s _ hs hu ht
  refine ⟨hs.lt_65536, ?_⟩
  unfold ConstantPool.nameAndType
  rw [hs.lookup _ (t % 65536, u % 65536) (by rfl)]
  show (pool.utf8 (t % 65536) >>= fun name => pool.utf8 (u % 65536) >>= fun descriptor =>
    Pure.pure (name, descriptor)) = _
  rw [Nat.mod_eq_of_lt ht.lt, Nat.mod_eq_of_lt hu.lt, ht.utf8, hu.utf8]
  rfl

theorem member (kind : MemberKind) (h : Encodable owner) (h' : Encodable name)
    (h'' : Encodable descriptor) :
    Assembles pool (Assembler.member kind owner name descriptor) fun s =>
      ∃ c n, Pool.Holds pool (.member kind c n) s ∧
        pool.memberRef (c % 65536, n % 65536) = .ok ⟨owner, name, descriptor⟩ := by
  refine (classInfo h).bind fun c _ => (nameAndType h' h'').bind fun n _ => ?_
  refine (slot (e := .member kind c n) trivial).mono ?_ fun _ h => h
  intro s _ hs hn hc
  refine ⟨c, n, hs, ?_⟩
  unfold ConstantPool.memberRef
  rw [Nat.mod_eq_of_lt hc.lt, Nat.mod_eq_of_lt hn.1, hc.className, hn.2]
  rfl

theorem field (h : Encodable owner) (h' : Encodable name) (h'' : Encodable descriptor) :
    Assembles pool (Assembler.member .field owner name descriptor) fun s =>
      s < 65536 ∧ pool.fieldRef s = .ok ⟨owner, name, descriptor⟩ := by
  refine (member .field h h' h'').mono ?_ fun _ h => h
  rintro s _ ⟨c, n, hs, href⟩
  refine ⟨hs.lt_65536, ?_⟩
  unfold ConstantPool.fieldRef
  rw [hs.lookup _ (c % 65536, n % 65536) (by rfl)]
  exact href

theorem method {kind : MemberKind} (hkind : kind ≠ .field) (h : Encodable owner)
    (h' : Encodable name) (h'' : Encodable descriptor) :
    Assembles pool (Assembler.member kind owner name descriptor) fun s =>
      s < 65536 ∧ pool.methodRef s = .ok ⟨owner, name, descriptor⟩ := by
  refine (member kind h h' h'').mono ?_ fun _ h => h
  rintro s _ ⟨c, n, hs, href⟩
  refine ⟨hs.lt_65536, ?_⟩
  unfold ConstantPool.methodRef
  cases kind with
  | field => exact absurd rfl hkind
  | method | interfaceMethod =>
    rw [hs.lookup _ (c % 65536, n % 65536) (by rfl)]
    exact href

theorem invokeDynamic (h : Encodable name) (h' : Encodable descriptor) :
    Assembles pool (Assembler.invokeDynamic name descriptor) fun s =>
      s < 65536 ∧ pool.callSite s = .ok (name, descriptor) := by
  refine (nameAndType h h').bind fun n _ => ?_
  refine (slot (e := .invokeDynamic n) trivial).mono ?_ fun _ h => h
  intro s _ hs hn
  refine ⟨hs.lt_65536, ?_⟩
  unfold ConstantPool.callSite
  rw [hs.lookup _ (n % 65536) (by rfl)]
  show pool.nameAndType (n % 65536) = _
  rw [Nat.mod_eq_of_lt hn.1, hn.2]

/-! ### Tables -/

/-- Elements that are read one by one are read as a list. Readers may need fuel, of which they have
    at least as much as there are bytes. -/
theorem each_within {r : Nat → Reader β}
    (h : ∀ x ∈ xs, Assembles pool (write x) fun bytes => ∀ fuel offset, bytes.length ≤ fuel →
      Reads offset (r fuel) bytes (view x)) :
    Assembles pool (Assembler.each write xs) fun bytes => ∀ fuel offset, bytes.length ≤ fuel →
      ReadsEach (r fuel) offset bytes (xs.map view) := by
  induction xs with
  | nil => exact .pure trivial fun _ offset _ => .nil offset
  | cons x xs ih =>
    refine (h x List.mem_cons_self).bind fun bytes _ => ?_
    refine (ih fun y hy => h y (List.mem_cons_of_mem x hy)).bind fun bytes' _ => ?_
    -- Fuel for all bytes is fuel for the first ones and for the rest.
    refine .pure trivial fun hrest hhead fuel offset hfuel => ?_
    rw [List.length_append] at hfuel
    exact .cons (hhead fuel offset (by omega)) (hrest fuel _ (by omega))

theorem table_within {r : Nat → Reader β} (hlen : xs.length < 65536)
    (h : ∀ x ∈ xs, Assembles pool (write x) fun bytes => ∀ fuel offset, bytes.length ≤ fuel →
      Reads offset (r fuel) bytes (view x)) :
    Assembles pool (Assembler.table write xs) fun bytes => ∀ fuel offset, bytes.length ≤ fuel →
      Reads offset (Reader.table (r fuel)) bytes (xs.map view) := by
  refine (each_within h).map fun bytes hbytes fuel offset hfuel => ?_
  rw [List.length_append] at hfuel
  have hread := (hbytes fuel (offset + 2) (by omega)).table (by rwa [List.length_map])
  rwa [List.length_map] at hread

theorem table {r : Reader β} (hlen : xs.length < 65536)
    (h : ∀ x ∈ xs, Assembles pool (write x) fun bytes => ∀ offset, Reads offset r bytes (view x)) :
    Assembles pool (Assembler.table write xs) fun bytes => ∀ offset,
      Reads offset (Reader.table r) bytes (xs.map view) := by
  have hfueled := table_within (r := fun _ => r) hlen fun x hx =>
    (h x hx).mono (fun _ _ hread _ offset _ => hread offset) fun _ h => h
  exact hfueled.mono (fun bytes _ hread offset => hread bytes.length offset (Nat.le_refl _)) fun _ h => h

end Assembles

/-! ### Lengths -/

theorem length_each {size : α → Nat} (h : ∀ x ∈ xs, ∀ p, (write x p).1.length = size x) (p : Pool) :
    (Assembler.each write xs p).1.length = (xs.map size).sum := by
  induction xs generalizing p with
  | nil => rfl
  | cons x xs ih =>
    show ((write x p).1 ++ (Assembler.each write xs (write x p).2).1).length = _
    rw [List.length_append, h x List.mem_cons_self, ih fun y hy => h y (List.mem_cons_of_mem x hy)]
    rfl

theorem length_table {size : α → Nat} (h : ∀ x ∈ xs, ∀ p, (write x p).1.length = size x) (p : Pool) :
    (Assembler.table write xs p).1.length = 2 + (xs.map size).sum := by
  show (u2 xs.length ++ (Assembler.each write xs p).1).length = _
  rw [List.length_append, length_each h, length_u2]

theorem length_rows {n : Nat} (h : ∀ x p, (write x p).1.length = n) (xs : List α) (p : Pool) :
    (Assembler.table write xs p).1.length = 2 + n * xs.length := by
  have hrows : ∀ x ∈ xs, ∀ p, (write x p).1.length = (fun _ => n) x := fun x _ => h x
  rw [length_table hrows]
  simp [Nat.mul_comm]

end ClassAudit.Assembly
