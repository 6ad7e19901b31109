import ClassAudit.Proofs.ClassFile.Tiling

/-! # Slots of a constant pool

    Entries of a pool have one slot or two, so that an entry and its slot have different numbers
    from the first constant of eight bytes on. `ConstantPool.EntryAt` counts slots along the bytes
    of a pool, by the tags alone; `ConstantPool.Disciplined` says that a pool has every entry in the
    slot that is counted for it, and nothing that could be named in all others.

    The reader fills slots from the front. `ConstantPool.Laid` is what it has filled them with,
    entry by entry, and a pool that has been read is disciplined because of that.
-/

namespace ClassAudit

variable {tag : Tag} {n : Nat} {c : Constant} {c' : Cursor}

/-! ### Entries among the bytes -/

namespace Constant

/-- The number of bytes of an entry with a tag. A text has its own length behind its tag. -/
def lengthOfTag? (data : List UInt8) (pos : Nat) : (tag : Nat) → Option Nat
  | 1 => some (3 + uint16At data (pos + 1))
  | 3 | 4 => some 5
  | 5 | 6 => some 9
  | 7 | 8 | 16 | 19 | 20 => some 3
  | 9 | 10 | 11 | 12 | 17 | 18 => some 5
  | 15 => some 4
  | _ => none

/-- The number of bytes of the entry at a position, if there is one. -/
def lengthAt? (data : List UInt8) (pos : Nat) : Option Nat := do
  lengthOfTag? data pos (← data[pos]?).toNat

/-- The number of slots of the entry at a position. -/
def slotsAt (data : List UInt8) (pos : Nat) : Nat :=
  if data[pos]? = some 5 ∨ data[pos]? = some 6 then 2 else 1

end Constant

namespace ConstantPool

/-- The bytes of a pool have the entry of a slot at a position. The number of slots stands in front
    of the first entry, which has slot 1. -/
inductive EntryAt (data : List UInt8) : (slot pos : Nat) → Prop where
  | first : EntryAt data 1 2
  | next {slot pos length : Nat} : EntryAt data slot pos →
      Constant.lengthAt? data pos = some length →
      EntryAt data (slot + Constant.slotsAt data pos) (pos + length)

def tagNumbers : List Nat :=
  [1, 3, 4, 5, 6, 7, 8, 9, 10, 11, 12, 15, 16, 17, 18, 19, 20]

/-- A pool has the slots that its bytes declare and fill. -/
structure Disciplined (data : List UInt8) (pool : ConstantPool) : Prop where
  /-- There are as many slots as the number in front says. -/
  size : pool.slots.size = uint16At data 0
  zero : pool.slots[0]? = some .unusable
  /-- There is a slot behind a constant of eight bytes, and it is unusable. -/
  afterWide : ∀ i c, pool.slots[i]? = some c → c = .long ∨ c = .double →
    pool.slots[i + 1]? = some .unusable
  /-- A slot behind any other one has a constant in it. -/
  tagged : ∀ i b c, pool.slots[i]? = some b → b ≠ .long → b ≠ .double →
    pool.slots[i + 1]? = some c → c.tag.toNat ∈ tagNumbers
  /-- An entry of the bytes is in the slot that is counted for it. -/
  entries : ∀ slot pos, EntryAt data slot pos → slot < uint16At data 0 →
    ∃ c, pool.slots[slot]? = some c ∧ data[pos]?.map UInt8.toNat = some c.tag.toNat

end ConstantPool

/-! ### Reading an entry -/

variable {data : List UInt8} {pos : Nat}

namespace Constant

/-- A constant is the entry at a position, with a number of bytes. -/
structure StandsAt (data : List UInt8) (pos : Nat) (c : Constant) (length : Nat) : Prop where
  tag : data[pos]?.map UInt8.toNat = some c.tag.toNat
  usable : c.tag ≠ .unusable
  length : lengthAt? data pos = some length

theorem toNat_mem_tagNumbers (h : tag ≠ .unusable) : tag.toNat ∈ ConstantPool.tagNumbers := by
  cases tag with
  | unusable => exact absurd rfl h
  | _ => decide

theorem toNat_of_ofNat? (h : Tag.ofNat? n = some tag) : tag.toNat = n ∧ tag ≠ .unusable := by
  unfold Tag.ofNat? at h
  split at h
  all_goals cases h
  all_goals exact ⟨rfl, nofun⟩

theorem lengthAt?_eq (h : data[pos]?.map UInt8.toNat = some n) :
    lengthAt? data pos = lengthOfTag? data pos n := by
  obtain ⟨b, hb, rfl⟩ := Option.map_eq_some_iff.mp h
  rw [lengthAt?, hb]
  rfl

open Reader

section Body

variable {c : Constant} {c' : Cursor} {k : Nat}

theorem eq_of_read_u2 {f : Nat → Constant}
    (h : (do return f (← u2) : Reader Constant) (.before data k) = .ok (c, c')) :
    ∃ n, c = f n ∧ c' = .before data (k + 2) := by
  simp only [bind_eq_ok_iff, u2_eq_ok_iff, pure_eq_ok_iff] at h
  obtain ⟨n, _, ⟨-, -, rfl⟩, rfl, rfl⟩ := h
  exact ⟨n, rfl, rfl⟩

theorem eq_of_read_u2_u2 {f : Nat → Nat → Constant}
    (h : (do return f (← u2) (← u2) : Reader Constant) (.before data k) = .ok (c, c')) :
    ∃ m n, c = f m n ∧ c' = .before data (k + 4) := by
  rw [bind_eq_ok_iff] at h
  obtain ⟨m, _, hm, h⟩ := h
  obtain ⟨-, -, rfl⟩ := u2_eq_ok_iff.mp hm
  obtain ⟨n, hc, hc'⟩ := eq_of_read_u2 h
  exact ⟨m, n, hc, hc'⟩

theorem eq_of_skip {c₀ : Constant}
    (h : (do skip n; return c₀ : Reader Constant) (.before data k) = .ok (c, c')) :
    c = c₀ ∧ c' = .before data (k + n) := by
  simp only [bind_eq_ok_iff, skip_eq_ok_iff, pure_eq_ok_iff] at h
  obtain ⟨_, _, ⟨-, rfl⟩, rfl, rfl⟩ := h
  exact ⟨rfl, rfl⟩

/-- What is read behind a tag is a constant of that kind, as long as its tag says. -/
theorem standsAt_of_readBody {index : Nat} (htag : data[pos]?.map UInt8.toNat = some tag.toNat)
    (husable : tag ≠ .unusable) (h : readBody index tag (.before data (pos + 1)) = .ok (c, c')) :
    ∃ length, StandsAt data pos c length ∧ c' = .before data (pos + length) := by
  have hlength := lengthAt?_eq htag
  cases tag with
  | unusable => exact absurd rfl husable
  | utf8 =>
    rw [readBody, bind_eq_ok_iff] at h
    obtain ⟨n, _, hn, h⟩ := h
    obtain ⟨-, rfl, rfl⟩ := u2_eq_ok_iff.mp hn
    simp only [bind_eq_ok_iff, bytes_eq_ok_iff, lift_eq_ok_iff, pure_eq_ok_iff] at h
    obtain ⟨_, _, ⟨-, -, rfl⟩, _, _, ⟨-, rfl⟩, rfl, rfl⟩ := h
    refine ⟨_, ⟨htag, husable, hlength⟩, ?_⟩
    congr 1
    omega
  | integer | float | long | double =>
    obtain ⟨rfl, rfl⟩ := eq_of_skip h
    exact ⟨_, ⟨htag, husable, hlength⟩, rfl⟩
  | classInfo | string | methodType | moduleInfo | packageInfo =>
    obtain ⟨n, rfl, rfl⟩ := eq_of_read_u2 h
    exact ⟨_, ⟨htag, husable, hlength⟩, rfl⟩
  | fieldref | methodref | interfaceMethodref | nameAndType | dynamic | invokeDynamic =>
    obtain ⟨m, n, rfl, rfl⟩ := eq_of_read_u2_u2 h
    exact ⟨_, ⟨htag, husable, hlength⟩, rfl⟩
  | methodHandle =>
    rw [readBody, bind_eq_ok_iff] at h
    obtain ⟨kind, _, hkind, h⟩ := h
    obtain ⟨-, rfl⟩ := u1_eq_ok_iff.mp hkind
    obtain ⟨n, rfl, rfl⟩ := eq_of_read_u2 h
    exact ⟨_, ⟨htag, husable, hlength⟩, rfl⟩

theorem standsAt_of_read {index : Nat} (h : read index (.before data pos) = .ok (c, c')) :
    ∃ length, StandsAt data pos c length ∧ c' = .before data (pos + length) := by
  rw [read, bind_eq_ok_iff] at h
  obtain ⟨b, _, hread, h⟩ := h
  obtain ⟨hb, rfl⟩ := u1_eq_ok_iff.mp hread
  cases htag : Tag.ofNat? b.toNat with
  | none =>
    rw [htag] at h
    nomatch h
  | some tag =>
    rw [htag] at h
    obtain ⟨hnat, husable⟩ := toNat_of_ofNat? htag
    exact standsAt_of_readBody (by rw [hb, hnat]; rfl) husable h

end Body

theorem isWide_iff : c.tag.isWide = true ↔ c = .long ∨ c = .double := by
  cases c <;> simp [tag, Tag.isWide]

theorem isWide_iff_byte {b : UInt8} (h : b.toNat = tag.toNat) :
    (b = 5 ∨ b = 6) ↔ tag.isWide = true := by
  rw [← UInt8.toNat_inj, ← UInt8.toNat_inj, h]
  cases tag <;> decide

theorem StandsAt.slotsAt_eq {length : Nat} (h : StandsAt data pos c length) :
    slotsAt data pos = if c.tag.isWide then 2 else 1 := by
  obtain ⟨b, hb, hnat⟩ := Option.map_eq_some_iff.mp h.tag
  rw [slotsAt, hb]
  exact if_congr (by simpa using isWide_iff_byte hnat) rfl rfl

theorem slotsAt_pos (data : List UInt8) (pos : Nat) : 0 < slotsAt data pos := by
  unfold slotsAt
  split <;> decide

end Constant

/-! ### Filling slots -/

namespace ConstantPool

open Reader

/-- From a position on, the entries of the bytes fill these slots. -/
inductive Laid (data : List UInt8) : (pos : Nat) → List Constant → Prop where
  | nil (pos : Nat) : Laid data pos []
  | narrow {pos length : Nat} {c : Constant} {rest : List Constant} :
      c.StandsAt data pos length → c.tag.isWide = false → Laid data (pos + length) rest →
      Laid data pos (c :: rest)
  | wide {pos length : Nat} {c : Constant} {rest : List Constant} :
      c.StandsAt data pos length → c.tag.isWide = true → Laid data (pos + length) rest →
      Laid data pos (c :: .unusable :: rest)

/-- The slots that are left are filled with the entries that follow. -/
theorem laid_of_readSlots {count : Nat} {slots result : Array Constant}
    (h : readSlots count n slots (.before data pos) = .ok (result, c')) :
    ∃ more, result.toList = slots.toList ++ more ∧ more.length = n ∧ Laid data pos more := by
  fun_induction readSlots count n slots generalizing pos with
  | case1 slots =>
    obtain ⟨rfl, -⟩ := pure_eq_ok_iff.mp h
    exact ⟨[], by simp, rfl, .nil pos⟩
  | case2 slots =>
    obtain ⟨c, _, hread, h⟩ := bind_eq_ok h
    obtain ⟨length, hstands, rfl⟩ := Constant.standsAt_of_read hread
    -- A single slot has no room for a constant of two.
    split at h
    · cases h
    · next hnarrow =>
      obtain ⟨rfl, -⟩ := pure_eq_ok_iff.mp h
      refine ⟨[c], by simp, rfl, .narrow hstands (by simpa using hnarrow) (.nil _)⟩
  | case3 n slots ihwide ihnarrow =>
    obtain ⟨c, _, hread, h⟩ := bind_eq_ok h
    obtain ⟨length, hstands, rfl⟩ := Constant.standsAt_of_read hread
    split at h
    · next hwide =>
      obtain ⟨more, hresult, hlen, hlaid⟩ := ihwide c h
      exact ⟨c :: .unusable :: more, by simp [hresult], by simp [hlen], .wide hstands hwide hlaid⟩
    · next hnarrow =>
      obtain ⟨more, hresult, hlen, hlaid⟩ := ihnarrow c h
      exact ⟨c :: more, by simp [hresult], by simp [hlen],
        .narrow hstands (by simpa using hnarrow) hlaid⟩

/-- The slots behind the first one, and the entries that fill them. -/
theorem laid_of_read {pool : ConstantPool} (h : read (.before data 0) = .ok (pool, c')) :
    ∃ more, pool.slots.toList = .unusable :: more ∧ more.length + 1 = uint16At data 0 ∧
      Laid data 2 more := by
  obtain ⟨count, _, hcount, h⟩ := bind_eq_ok h
  obtain ⟨-, rfl, rfl⟩ := u2_eq_ok_iff.mp hcount
  cases hn : uint16At data 0 with
  | zero =>
    rw [hn] at h
    nomatch h
  | succ n =>
    rw [hn] at h
    obtain ⟨slots, _, hslots, h⟩ := bind_eq_ok h
    obtain ⟨rfl, -⟩ := pure_eq_ok_iff.mp h
    obtain ⟨more, hmore, hlen, hlaid⟩ := laid_of_readSlots hslots
    exact ⟨more, hmore, by rw [hlen], hlaid⟩

theorem EntryAt.slot_pos {slot : Nat} (h : EntryAt data slot pos) : 0 < slot := by
  induction h with
  | first => exact Nat.one_pos
  | next _ _ ih => exact Nat.add_pos_left ih _

namespace Laid

variable {x : Constant} {slots : List Constant}

/-- The slot behind a constant of two slots, if the slot in front of all others has none. -/
theorem afterWide (h : Laid data pos slots) (hx : x.tag.isWide = false) {i : Nat}
    (hc : (x :: slots)[i]? = some c) (hwide : c.tag.isWide = true) :
    (x :: slots)[i + 1]? = some .unusable := by
  have hne {y : Constant} (hy : y.tag.isWide = false) : y ≠ c := by
    rintro rfl
    rw [hy] at hwide
    nomatch hwide
  -- The slot in front stands for the one that was filled last, so every step moves it on by an entry.
  induction h generalizing x i with
  | nil pos =>
    cases i with
    | zero => exact absurd (Option.some.inj hc) (hne hx)
    | succ i => nomatch hc
  | narrow _ hnarrow _ ih =>
    cases i with
    | zero => exact absurd (Option.some.inj hc) (hne hx)
    | succ i => exact ih hnarrow hc
  | wide _ _ _ ih =>
    rcases i with _ | _ | i
    · exact absurd (Option.some.inj hc) (hne hx)
    · rfl
    · exact ih rfl hc

theorem tagged (h : Laid data pos slots) (hx : x.tag.isWide = false) {i : Nat} {b : Constant}
    (hb : (x :: slots)[i]? = some b) (hnarrow : b.tag.isWide = false)
    (hc : (x :: slots)[i + 1]? = some c) : c.tag ≠ .unusable := by
  induction h generalizing x i with
  | nil pos => nomatch hc
  | narrow hstands hnarrow' _ ih =>
    cases i with
    | zero =>
      obtain rfl := Option.some.inj hc
      exact hstands.usable
    | succ i => exact ih hnarrow' hb hc
  | wide hstands hwide _ ih =>
    rcases i with _ | _ | i
    · obtain rfl := Option.some.inj hc
      exact hstands.usable
    · obtain rfl := Option.some.inj hb
      rw [hwide] at hnarrow
      nomatch hnarrow
    · exact ih rfl hb hc

/-- The entry of a slot is followed by the entries of the slots behind it. -/
theorem drop (h : Laid data 2 slots) {slot : Nat} (hentry : EntryAt data slot pos)
    (hslot : slot ≤ slots.length + 1) : Laid data pos (slots.drop (slot - 1)) := by
  induction hentry with
  | first => exact h
  | @next slot pos length hentry hlength ih =>
    have hlaid := ih (by omega)
    have hpos := hentry.slot_pos
    have hdrop : slots.drop (slot + Constant.slotsAt data pos - 1) =
        (slots.drop (slot - 1)).drop (Constant.slotsAt data pos) := by
      rw [List.drop_drop]
      congr 1
      omega
    have hlen := slots.length_drop (i := slot - 1)
    rw [hdrop]
    generalize slots.drop (slot - 1) = rest at hlaid hlen ⊢
    -- The entry at the position is the one that fills the next slots.
    cases hlaid with
    | nil =>
      have hone := Constant.slotsAt_pos data pos
      rw [List.length_nil] at hlen
      omega
    | narrow hstands hnarrow hrest =>
      obtain rfl := Option.some.inj (hstands.length.symm.trans hlength)
      rw [hstands.slotsAt_eq, hnarrow]
      exact hrest
    | wide hstands hwide hrest =>
      obtain rfl := Option.some.inj (hstands.length.symm.trans hlength)
      rw [hstands.slotsAt_eq, hwide]
      exact hrest

theorem head (h : Laid data pos (c :: slots)) : data[pos]?.map UInt8.toNat = some c.tag.toNat := by
  cases h with
  | narrow hstands _ _ => exact hstands.tag
  | wide hstands _ _ => exact hstands.tag

end Laid

theorem disciplined_of_read {pool : ConstantPool} {offset : Nat}
    (h : read ⟨offset, data⟩ = .ok (pool, c')) : Disciplined data pool := by
  -- Where the bytes stand in the file does not matter.
  obtain ⟨used, hused, hreads⟩ := local_read _ _ _ h
  change data = used ++ c'.rest at hused
  have hread : read (.before data 0) = .ok (pool, ⟨0 + used.length, c'.rest⟩) := by
    rw [hused]
    exact hreads 0 c'.rest
  obtain ⟨more, hslots, hcount, hlaid⟩ := laid_of_read hread
  have hget (i : Nat) : pool.slots[i]? = (.unusable :: more)[i]? := by
    rw [← hslots, Array.getElem?_toList]
  have hfirst : Constant.unusable.tag.isWide = false := rfl
  refine ⟨?_, hget 0, fun i c hc hwide => ?_, fun i b c hb hlong hdouble hc => ?_,
    fun slot pos hentry hslot => ?_⟩
  · rw [← Array.length_toList, hslots, List.length_cons, hcount]
  · rw [hget] at hc ⊢
    exact hlaid.afterWide hfirst hc (Constant.isWide_iff.mpr hwide)
  · rw [hget] at hb hc
    have hnarrow : b.tag.isWide = false := by
      rw [Bool.eq_false_iff, ne_eq, Constant.isWide_iff]
      exact not_or.mpr ⟨hlong, hdouble⟩
    exact Constant.toNat_mem_tagNumbers (hlaid.tagged hfirst hb hnarrow hc)
  · have hpos := hentry.slot_pos
    have hrest := hlaid.drop hentry (by omega)
    rw [List.drop_eq_getElem_cons (by omega)] at hrest
    refine ⟨_, ?_, hrest.head⟩
    rw [hget, List.getElem?_cons, if_neg (by omega), List.getElem?_eq_getElem]

end ConstantPool

end ClassAudit
