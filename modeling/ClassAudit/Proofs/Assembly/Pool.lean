import Mathlib.Tactic.Convert
import ClassAudit.Proofs.ClassFile.ModifiedUtf8
import ClassAudit.Proofs.ClassFile.Reading
import ClassAudit.ClassFile.ConstantPool

/-! # Pools read back

    A pool that an assembler has filled is written entry by entry, and reading the bytes gives a
    constant pool that holds every entry in the slot that the assembler was told.

    - `Pool.Grows` says what an assembler can do to a pool: intern entries, one after the other.
      What every pool keeps is shown once, for interning one entry.
    - `Pool.reads_bytes` reads the bytes of a pool back as `Pool.constants`.
    - `Pool.held_constants` finds every entry there, which is what `Pool.HeldBy` means.
-/

namespace ClassAudit.Assembly

open Reader (Reads ReadsEach)

/-! ### Entries -/

/-- A text that a constant can hold. -/
structure Encodable (s : String) : Prop where
  /-- There is no NUL and no character above U+FFFF. -/
  plain : ModifiedUtf8.Plain s
  /-- The number of bytes fits in its field. -/
  size : s.utf8ByteSize < 65536

instance (s : String) : Decidable (Encodable s) :=
  decidable_of_iff (ModifiedUtf8.Plain s ∧ s.utf8ByteSize < 65536)
    ⟨fun h => ⟨h.1, h.2⟩, fun h => ⟨h.plain, h.size⟩⟩

namespace Entry

/-- Whether the bytes of an entry can be read back. -/
def Writable : Entry → Prop
  | utf8 text => Encodable text
  | _ => True

/-- The constant that the bytes of an entry stand for. A slot number has two bytes. -/
def constant : Entry → Constant
  | utf8 text => .utf8 text
  | integer _ => .integer
  | long _ => .long
  | classInfo name => .classInfo (name % 65536)
  | string text => .string (text % 65536)
  | methodType descriptor => .methodType (descriptor % 65536)
  | nameAndType name descriptor => .nameAndType (name % 65536) (descriptor % 65536)
  | member .field owner signature => .fieldref (owner % 65536) (signature % 65536)
  | member .method owner signature => .methodref (owner % 65536) (signature % 65536)
  | member .interfaceMethod owner signature =>
    .interfaceMethodref (owner % 65536) (signature % 65536)
  | invokeDynamic signature => .invokeDynamic 0 (signature % 65536)

/-- What an entry puts into its slots. -/
def content (e : Entry) : List Constant :=
  if e.constant.tag.isWide then [e.constant, .unusable] else [e.constant]

theorem length_content (e : Entry) : e.content.length = e.slots := by
  cases e with
  | member kind _ _ => cases kind <;> rfl
  | _ => rfl

/-- The numbers of slots by which code can name an entry end here. A string is loaded by an
    instruction that has one byte for its slot. -/
def slotBound : Entry → Nat
  | string _ => 256
  | _ => 65536

theorem slotBound_le (e : Entry) : e.slotBound ≤ 65536 := by
  cases e <;> simp [slotBound]

end Entry

/-- A slot number that stands in two bytes. -/
theorem reads_u2_slot (offset n : Nat) : Reads offset Reader.u2 (u2 n) (n % 65536) := by
  have h := Reads.u2_mod offset n
  rwa [show ((n : Int) % 65536).toNat = n % 65536 by omega] at h

theorem Entry.reads_bytes {e : Entry} (h : e.Writable) (offset index : Nat) :
    Reads offset (Constant.read index) e.bytes e.constant := by
  -- Most constants are one or two slot numbers behind their tag.
  have two (offset a b : Nat) (mk : Nat → Nat → Constant) :
      Reads offset (do return mk (← Reader.u2) (← Reader.u2)) (u2 a ++ u2 b)
        (mk (a % 65536) (b % 65536)) :=
    (reads_u2_slot offset a).bind ((reads_u2_slot _ b).map (mk (a % 65536)))
  have one (offset a : Nat) (mk : Nat → Constant) :
      Reads offset (do return mk (← Reader.u2)) (u2 a) (mk (a % 65536)) :=
    (reads_u2_slot offset a).map mk
  cases e with
  | utf8 text =>
    have hsize : (Text.utf8 text).length < 65536 := Text.length_utf8 text ▸ h.size
    show Reads offset _ ([1] ++ (u2 text.utf8ByteSize ++ Text.utf8 text)) _
    rw [← Text.length_utf8]
    refine (Reads.u1 offset 1).bind ((Reads.u2 _ hsize).bind ((Reads.bytes _ _).bind_nil ?_))
    refine Reads.lift_bind ?_ (Reads.pure _ _)
    rw [ModifiedUtf8.decode_utf8 h.plain]
    rfl
  | integer value =>
    exact (Reads.u1 offset 3).bind
      ((Reads.skip_of_length _ (length_u4 value)).map fun _ => Constant.integer)
  | long value =>
    have hlen : (u8 value).length = 8 := rfl
    exact (Reads.u1 offset 5).bind
      ((Reads.skip_of_length _ hlen).map fun _ => Constant.long)
  | classInfo name => exact (Reads.u1 offset 7).bind (one _ name .classInfo)
  | string text => exact (Reads.u1 offset 8).bind (one _ text .string)
  | methodType descriptor =>
    exact (Reads.u1 offset 16).bind (one _ descriptor .methodType)
  | nameAndType name descriptor =>
    exact (Reads.u1 offset 12).bind (two _ name descriptor .nameAndType)
  | member kind owner signature =>
    cases kind with
    | field => exact (Reads.u1 offset 9).bind (two _ owner signature .fieldref)
    | method => exact (Reads.u1 offset 10).bind (two _ owner signature .methodref)
    | interfaceMethod =>
      exact (Reads.u1 offset 11).bind (two _ owner signature .interfaceMethodref)
  | invokeDynamic signature =>
    exact (Reads.u1 offset 18).bind (two _ 0 signature .invokeDynamic)

/-! ### Growing pools -/

namespace Pool

/-- A pool after some entries have been interned. -/
inductive Grows (p : Pool) : Pool → Prop where
  | refl : Grows p p
  | slot {q : Pool} (e : Entry) : Grows p q → e.Writable → Grows p (Assembler.slot e q).2

theorem Grows.trans {p q r : Pool} (h : Grows p q) (h' : Grows q r) : Grows p r := by
  induction h' with
  | refl => exact h
  | slot e _ he ih => exact .slot e ih he

/-- What interning an entry can do: nothing, or add the entry in front if it is new. -/
theorem slot_cases (e : Entry) (p : Pool) :
    (∃ s, (e, s) ∈ p.entries ∧ Assembler.slot e p = (s, p)) ∨
    e ∉ p.entries.map Prod.fst ∧
      Assembler.slot e p = (p.next, ⟨(e, p.next) :: p.entries, p.next + e.slots⟩) := by
  unfold Assembler.slot
  cases h : p.entries.lookup e with
  | some s =>
    obtain ⟨l₁, l₂, heq, -⟩ := List.lookup_eq_some_iff.mp h
    exact Or.inl ⟨s, by rw [heq]; simp, rfl⟩
  | none =>
    refine Or.inr ⟨fun hmem => ?_, rfl⟩
    obtain ⟨x, hx, rfl⟩ := List.mem_map.mp hmem
    exact absurd (List.lookup_eq_none_iff.mp h x hx) (by simp)

theorem mem_slot (e : Entry) (p : Pool) :
    (e, (Assembler.slot e p).1) ∈ (Assembler.slot e p).2.entries := by
  rcases slot_cases e p with ⟨s, hs, h⟩ | ⟨-, h⟩
  · rw [h]
    exact hs
  · rw [h]
    exact List.mem_cons_self

theorem Grows.mem {p q : Pool} (h : Grows p q) {x : Entry × Nat} (hx : x ∈ p.entries) :
    x ∈ q.entries := by
  induction h with
  | refl => exact hx
  | @slot q e _ _ ih =>
    rcases slot_cases e q with ⟨s, -, h⟩ | ⟨-, h⟩
    · rw [h]
      exact ih
    · rw [h]
      exact List.mem_cons_of_mem _ ih

/-- Entries take their slots one after the other, from slot 1 on; the latest entry is the first
    of the list. -/
def Placed : List (Entry × Nat) → Nat → Prop
  | [], next => next = 1
  | (e, s) :: older, next => next = s + e.slots ∧ Placed older s

/-- What holds of every pool that an assembler has filled. -/
structure Valid (p : Pool) : Prop where
  placed : Placed p.entries p.next
  writable : ∀ x ∈ p.entries, x.1.Writable

theorem valid_empty : Valid empty :=
  ⟨rfl, by simp [empty]⟩

theorem Valid.slot {p : Pool} (h : p.Valid) {e : Entry} (he : e.Writable) :
    (Assembler.slot e p).2.Valid := by
  rcases slot_cases e p with ⟨s, -, heq⟩ | ⟨-, heq⟩
  · rw [heq]
    exact h
  · rw [heq]
    refine ⟨⟨rfl, h.placed⟩, fun x hx => ?_⟩
    rcases List.mem_cons.mp hx with rfl | hx
    · exact he
    · exact h.writable x hx

theorem Grows.valid {p q : Pool} (h : Grows p q) (hp : p.Valid) : q.Valid := by
  induction h with
  | refl => exact hp
  | slot e _ he ih => exact ih.slot he

/-! ### Reading a pool -/

/-- What entries put into their slots, in the order of the slots from slot 1 on. -/
def contents (entries : List (Entry × Nat)) : List Constant :=
  (entries.reverse.map Prod.fst).flatMap Entry.content

/-- The constant pool that a pool becomes when it is written and read. -/
def constants (p : Pool) : ConstantPool :=
  ⟨#[.unusable] ++ (contents p.entries).toArray⟩

/-- A constant of one slot, and what is read after it. -/
theorem reads_slots_narrow {offset count n : Nat} {slots result : Array Constant} {c : Constant}
    {bytes bytes' : List UInt8} (hc : c.tag.isWide = false)
    (h : Reads offset (Constant.read slots.size) bytes c)
    (h' : Reads (offset + bytes.length) (ConstantPool.readSlots count n (slots.push c)) bytes'
      result) :
    Reads offset (ConstantPool.readSlots count (n + 1) slots) (bytes ++ bytes') result := by
  cases n with
  | zero => exact h.bind (by rw [hc]; exact h')
  | succ n => exact h.bind (by rw [hc]; exact h')

theorem reads_slots_wide {offset count n : Nat} {slots result : Array Constant} {c : Constant}
    {bytes bytes' : List UInt8} (hc : c.tag.isWide = true)
    (h : Reads offset (Constant.read slots.size) bytes c)
    (h' : Reads (offset + bytes.length)
      (ConstantPool.readSlots count n ((slots.push c).push .unusable)) bytes' result) :
    Reads offset (ConstantPool.readSlots count (n + 2) slots) (bytes ++ bytes') result :=
  h.bind (by rw [hc]; exact h')

theorem reads_slots {es : List Entry} (h : ∀ e ∈ es, e.Writable) (count offset : Nat)
    (slots : Array Constant) :
    Reads offset (ConstantPool.readSlots count (es.flatMap Entry.content).length slots)
      (es.flatMap Entry.bytes) (slots ++ (es.flatMap Entry.content).toArray) := by
  induction es generalizing offset slots with
  | nil =>
    rw [List.flatMap_nil, List.flatMap_nil, Array.append_empty]
    exact Reads.pure offset slots
  | cons e es ih =>
    have hread := e.reads_bytes (h e List.mem_cons_self) offset slots.size
    have hrest := fun slots => ih (fun e he => h e (List.mem_cons_of_mem _ he))
      (offset + e.bytes.length) slots
    rw [List.flatMap_cons, List.flatMap_cons, List.length_append]
    cases hwide : e.constant.tag.isWide with
    | true =>
      -- The reader puts the unusable slot behind the constant by itself.
      have hcontent : e.content = [e.constant, .unusable] := by simp [Entry.content, hwide]
      have hslots := hrest ((slots.push e.constant).push .unusable)
      rw [hcontent, List.length_cons, List.length_singleton, Nat.add_comm]
      convert reads_slots_wide hwide hread hslots using 1
      simp
    | false =>
      have hcontent : e.content = [e.constant] := by simp [Entry.content, hwide]
      have hslots := hrest (slots.push e.constant)
      rw [hcontent, List.length_singleton, Nat.add_comm]
      convert reads_slots_narrow hwide hread hslots using 1
      simp

theorem contents_cons (e : Entry) (s : Nat) (older : List (Entry × Nat)) :
    contents ((e, s) :: older) = contents older ++ e.content := by
  simp [contents]

theorem Placed.next_eq {entries : List (Entry × Nat)} {next : Nat} (h : Placed entries next) :
    next = (contents entries).length + 1 := by
  induction entries generalizing next with
  | nil => exact h
  | cons x older ih =>
    obtain ⟨e, s⟩ := x
    obtain ⟨rfl, holder⟩ := h
    have hs := ih holder
    rw [contents_cons, List.length_append, Entry.length_content]
    omega

theorem Placed.getElem?_contents {entries : List (Entry × Nat)} {next : Nat}
    (h : Placed entries next) {e : Entry} {s : Nat} (hmem : (e, s) ∈ entries) :
    0 < s ∧ s < next ∧ (contents entries)[s - 1]? = some e.constant := by
  induction entries generalizing next with
  | nil => simp at hmem
  | cons x older ih =>
    obtain ⟨e', s'⟩ := x
    obtain ⟨rfl, holder⟩ := h
    have hs' := holder.next_eq
    -- An older entry lies in front of the latest one, since every entry has a slot.
    have hpos : 0 < e'.slots := by cases e' <;> simp [Entry.slots]
    rw [contents_cons]
    rcases List.mem_cons.mp hmem with heq | hmem
    · obtain ⟨rfl, rfl⟩ := Prod.mk.injEq .. ▸ heq
      refine ⟨by omega, by omega, ?_⟩
      rw [List.getElem?_append_right (by omega), show s - 1 - (contents older).length = 0 by omega]
      unfold Entry.content
      split <;> rfl
    · obtain ⟨hlow, hhigh, hget⟩ := ih holder hmem
      refine ⟨hlow, by omega, ?_⟩
      rw [List.getElem?_append_left (by omega)]
      exact hget

/-- The bytes of a pool, with the number of slots in front, are read back. -/
theorem reads_bytes {p : Pool} (h : p.Valid) (hnext : p.next ≤ 65535) (offset : Nat) :
    Reads offset ConstantPool.read (u2 p.next ++ p.bytes) p.constants := by
  -- The list has the latest entry first, and the bytes have it last.
  have hbytes : p.bytes = (p.entries.reverse.map Prod.fst).flatMap Entry.bytes := by
    rw [List.flatMap_map]
    rfl
  have hwritable : ∀ e ∈ p.entries.reverse.map Prod.fst, e.Writable := by
    intro e he
    obtain ⟨x, hx, rfl⟩ := List.mem_map.mp he
    exact h.writable x (List.mem_reverse.mp hx)
  have hcount : p.next = (contents p.entries).length + 1 := h.placed.next_eq
  refine (Reads.u2 offset (by omega)).bind ?_
  rw [hcount, hbytes]
  exact (reads_slots hwritable _ _ #[.unusable]).map ConstantPool.mk

theorem Valid.getElem?_constants {p : Pool} (h : p.Valid) {e : Entry} {s : Nat}
    (hmem : (e, s) ∈ p.entries) :
    0 < s ∧ s < p.next ∧ p.constants.slots[s]? = some e.constant := by
  obtain ⟨hlow, hhigh, hget⟩ := h.placed.getElem?_contents hmem
  refine ⟨hlow, hhigh, ?_⟩
  show (#[Constant.unusable] ++ (contents p.entries).toArray)[s]? = _
  rw [Array.getElem?_append_right (Nat.succ_le_of_lt hlow)]
  simpa using hget

/-! ### Entries that are held -/

/-- A constant pool has an entry in a slot that code can name. -/
structure Holds (pool : ConstantPool) (e : Entry) (s : Nat) : Prop where
  pos : 0 < s
  lt : s < e.slotBound
  get : pool.slots[s]? = some e.constant

/-- A constant pool has all entries of a pool in their slots. -/
def HeldBy (p : Pool) (pool : ConstantPool) : Prop :=
  ∀ e s, (e, s) ∈ p.entries → Holds pool e s

theorem Grows.heldBy {p q : Pool} (h : Grows p q) {pool : ConstantPool} (hq : q.HeldBy pool) :
    p.HeldBy pool :=
  fun e s hmem => hq e s (h.mem hmem)

/-- A pool that is written and read has its entries where they were. Only strings need slots that
    one byte can name. -/
theorem held_constants {p : Pool} (h : p.Valid) (hnext : p.next ≤ 65535)
    (hstrings : ∀ text s, (.string text, s) ∈ p.entries → s ≤ 255) : p.HeldBy p.constants := by
  intro e s hmem
  obtain ⟨hlow, hhigh, hget⟩ := h.getElem?_constants hmem
  refine ⟨hlow, ?_, hget⟩
  cases e with
  | string text => exact Nat.lt_succ_of_le (hstrings text s hmem)
  | _ => exact Nat.lt_of_lt_of_le hhigh (by simp [Entry.slotBound]; omega)

end Pool

end ClassAudit.Assembly
