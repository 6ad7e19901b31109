import Mathlib.Data.Nat.Bitwise
import ClassAudit.Proofs.ClassFile.ModifiedUtf8

/-! # Byte strings in modified UTF-8

    Which byte strings are texts, and of which characters. Both halves of the format are relations
    of their own:

    - `Written bytes us` cuts a byte string into the bit patterns of units;
    - `Utf16 us cs` makes pairs of surrogates where a high one meets a low one.

    Decoding succeeds exactly on the byte strings that are written by units, and gives the
    characters of these. The format does not ask for the shortest pattern of a unit, so there are
    byte strings that decode to a text and are not its encoding.
-/

namespace ClassAudit.ModifiedUtf8

variable {b : UInt8} {bytes : List UInt8} {u : Nat} {us done : List Nat}

/-! ### Units and characters, as relations -/

/-- The bytes of one unit. The bits of a unit are the `x`, `y` and `z` behind the marks. -/
inductive WrittenUnit : List UInt8 → Nat → Prop where
  | one {b : UInt8} : 0x01 ≤ b → b ≤ 0x7F → WrittenUnit [b] b.toNat
  /-- `110xxxxx 10yyyyyy` -/
  | two (x : BitVec 5) (y : BitVec 6) :
      WrittenUnit [⟨0b110#3 ++ x⟩, ⟨0b10#2 ++ y⟩] (x ++ y).toNat
  /-- `1110xxxx 10yyyyyy 10zzzzzz` -/
  | three (x : BitVec 4) (y z : BitVec 6) :
      WrittenUnit [⟨0b1110#4 ++ x⟩, ⟨0b10#2 ++ y⟩, ⟨0b10#2 ++ z⟩] (x ++ y ++ z).toNat

/-- The bytes of units, one after the other. -/
inductive Written : List UInt8 → List Nat → Prop where
  | nil : Written [] []
  | cons {bytes rest : List UInt8} {u : Nat} {us : List Nat} :
      WrittenUnit bytes u → Written rest us → Written (bytes ++ rest) (u :: us)

/-- A unit that can be the first half of a pair. -/
def High (u : Nat) : Prop :=
  0xD800 ≤ u ∧ u ≤ 0xDBFF

/-- A unit that can be the second half of a pair. -/
def Low (u : Nat) : Prop :=
  0xDC00 ≤ u ∧ u ≤ 0xDFFF

/-- The characters of units in UTF-16, where a surrogate without its partner becomes U+FFFD. -/
inductive Utf16 : List Nat → List Char → Prop where
  | nil : Utf16 [] []
  | char {c : Char} {us : List Nat} {cs : List Char} :
      c.toNat ≤ 0xFFFF → Utf16 us cs → Utf16 (c.toNat :: us) (c :: cs)
  | pair {high low : Nat} {c : Char} {us : List Nat} {cs : List Char} :
      High high → Low low → c.toNat = 0x10000 + (high - 0xD800) * 0x400 + (low - 0xDC00) →
      Utf16 us cs → Utf16 (high :: low :: us) (c :: cs)
  | lone {u : Nat} {us : List Nat} {cs : List Char} :
      High u ∨ Low u → ¬ (High u ∧ ∃ v ∈ us.head?, Low v) →
      Utf16 us cs → Utf16 (u :: us) ('\ufffd' :: cs)

/-! ### Bits of bytes -/

/-- Bits in front of others count as multiples. -/
theorem toNat_append {m n : Nat} (x : BitVec m) (y : BitVec n) :
    (x ++ y).toNat = x.toNat * 2 ^ n + y.toNat := by
  rw [BitVec.toNat_append, ← Nat.shiftLeft_add_eq_or_of_lt y.isLt, Nat.shiftLeft_eq]

theorem kinds_of_byte (b : UInt8) :
    (isContinuation b = true ↔ 0x80 ≤ b.toNat ∧ b.toNat < 0xC0) ∧
    (b &&& 0xE0 = 0xC0 ↔ 0xC0 ≤ b.toNat ∧ b.toNat < 0xE0) ∧
    (b &&& 0xF0 = 0xE0 ↔ 0xE0 ≤ b.toNat ∧ b.toNat < 0xF0) := by
  have h := byte_kinds b.toNat b.toNat_lt
  rwa [UInt8.ofNat_toNat] at h

theorem toNat_continuation (y : BitVec 6) :
    (⟨0b10#2 ++ y⟩ : UInt8).toNat = 0x80 + y.toNat :=
  toNat_append 0b10#2 y

theorem toNat_leadTwo (x : BitVec 5) : (⟨0b110#3 ++ x⟩ : UInt8).toNat = 0xC0 + x.toNat :=
  toNat_append 0b110#3 x

theorem toNat_leadThree (x : BitVec 4) : (⟨0b1110#4 ++ x⟩ : UInt8).toNat = 0xE0 + x.toNat :=
  toNat_append 0b1110#4 x

/-- The bytes that have a mark in front of free bits are those of a range. -/
theorem exists_bits_iff {n base : Nat} {f : BitVec n → UInt8}
    (hf : ∀ x, (f x).toNat = base + x.toNat) :
    (∃ x, b = f x) ↔ base ≤ b.toNat ∧ b.toNat < base + 2 ^ n := by
  constructor
  · rintro ⟨x, rfl⟩
    have hx := x.isLt
    rw [hf]
    omega
  · rintro ⟨hlow, hhigh⟩
    have hbits : b.toNat - base < 2 ^ n := by omega
    refine ⟨.ofNatLT (b.toNat - base) hbits, UInt8.toNat_inj.mp ?_⟩
    rw [hf, BitVec.toNat_ofNatLT]
    omega

theorem isContinuation_iff : isContinuation b = true ↔ ∃ y : BitVec 6, b = ⟨0b10#2 ++ y⟩ := by
  rw [(kinds_of_byte b).1]
  exact (exists_bits_iff toNat_continuation).symm

theorem leadTwo_iff : b &&& 0xE0 = 0xC0 ↔ ∃ x : BitVec 5, b = ⟨0b110#3 ++ x⟩ := by
  rw [(kinds_of_byte b).2.1]
  exact (exists_bits_iff toNat_leadTwo).symm

theorem leadThree_iff : b &&& 0xF0 = 0xE0 ↔ ∃ x : BitVec 4, b = ⟨0b1110#4 ++ x⟩ := by
  rw [(kinds_of_byte b).2.2]
  exact (exists_bits_iff toNat_leadThree).symm

theorem payload_continuation (y : BitVec 6) : payload ⟨0b10#2 ++ y⟩ = y.toNat := by
  have hy := y.isLt
  rw [payload, toNat_continuation]
  omega

/-! ### Units from bytes -/

theorem value_two (x : BitVec 5) (y : BitVec 6) :
    (⟨0b110#3 ++ x⟩ : UInt8).toNat % 32 * 64 + payload ⟨0b10#2 ++ y⟩ = (x ++ y).toNat := by
  have hx := x.isLt
  rw [payload_continuation, toNat_leadTwo, toNat_append]
  omega

theorem value_three (x : BitVec 4) (y z : BitVec 6) :
    (⟨0b1110#4 ++ x⟩ : UInt8).toNat % 16 * 4096 + payload ⟨0b10#2 ++ y⟩ * 64 +
      payload ⟨0b10#2 ++ z⟩ = (x ++ y ++ z).toNat := by
  have hx := x.isLt
  rw [payload_continuation, payload_continuation, toNat_leadThree, toNat_append, toNat_append]
  omega

theorem WrittenUnit.lt (h : WrittenUnit bytes u) : u < 0x10000 := by
  cases h with
  | @one b hlow hhigh => exact Nat.lt_trans b.toNat_lt (by decide)
  | two x y => exact Nat.lt_trans (x ++ y).isLt (by decide)
  | three x y z => exact (x ++ y ++ z).isLt

theorem Written.lt (h : Written bytes us) : ∀ u ∈ us, u < 0x10000 := by
  induction h with
  | nil => exact fun u hu => (nomatch hu)
  | cons hunit _ ih => exact List.forall_mem_cons.mpr ⟨hunit.lt, ih⟩

theorem byte_one_iff : (0x01 ≤ b ∧ b ≤ 0x7F) ↔ b ≠ 0 ∧ b < 0x80 := by
  rw [UInt8.le_iff_toNat_le, UInt8.le_iff_toNat_le, UInt8.lt_iff_toNat_lt, ne_eq,
    ← UInt8.toNat_inj]
  show 1 ≤ b.toNat ∧ b.toNat ≤ 127 ↔ ¬ b.toNat = 0 ∧ b.toNat < 128
  omega

theorem not_byte_one (h : 0x80 ≤ b.toNat) : b ≠ 0 ∧ ¬ b < 0x80 := by
  rw [UInt8.lt_iff_toNat_lt, ne_eq, ← UInt8.toNat_inj]
  show ¬ b.toNat = 0 ∧ ¬ b.toNat < 128
  omega

theorem unitsFrom_writtenUnit (h : WrittenUnit bytes u) (done : List Nat) (rest : List UInt8) :
    unitsFrom done (bytes ++ rest) = unitsFrom (u :: done) rest := by
  cases h with
  | @one b hlow hhigh =>
    obtain ⟨hzero, hlt⟩ := byte_one_iff.mp ⟨hlow, hhigh⟩
    rw [List.singleton_append, unitsFrom.eq_def]
    simp only [hzero, hlt, if_true, if_false]
  | two x y =>
    have hlead := leadTwo_iff.mpr ⟨x, rfl⟩
    have hcont := isContinuation_iff.mpr ⟨y, rfl⟩
    obtain ⟨hzero, hlt⟩ := not_byte_one (b := ⟨0b110#3 ++ x⟩) (by rw [toNat_leadTwo]; omega)
    rw [List.cons_append, List.singleton_append, unitsFrom, if_neg hzero, if_neg hlt,
      if_pos hlead, if_pos hcont, value_two]
  | three x y z =>
    have hlead := leadThree_iff.mpr ⟨x, rfl⟩
    have hcont := isContinuation_iff.mpr ⟨y, rfl⟩
    have hcont' := isContinuation_iff.mpr ⟨z, rfl⟩
    obtain ⟨hzero, hlt⟩ := not_byte_one (b := ⟨0b1110#4 ++ x⟩) (by rw [toNat_leadThree]; omega)
    have htwo : ¬ (⟨0b1110#4 ++ x⟩ : UInt8) &&& 0xE0 = 0xC0 := by
      rw [(kinds_of_byte _).2.1, toNat_leadThree]
      omega
    rw [List.cons_append, List.cons_append, List.singleton_append, unitsFrom, if_neg hzero,
      if_neg hlt, if_neg htwo, if_pos hlead]
    dsimp only
    rw [hcont, hcont', Bool.and_self, if_pos rfl, value_three]

theorem WrittenUnit.length_pos (h : WrittenUnit bytes u) : 0 < bytes.length := by
  cases h with
  | one | two | three => exact Nat.succ_pos _

/-- What is read first is the bytes of a unit, and the rest is read behind it. -/
theorem unitsFrom_cons_eq_ok {rest : List UInt8} (h : unitsFrom done (b :: rest) = .ok us) :
    ∃ bytes u rest', b :: rest = bytes ++ rest' ∧ WrittenUnit bytes u ∧
      unitsFrom (u :: done) rest' = .ok us := by
  unfold unitsFrom at h
  -- One branch for each kind of first byte. In all others there are no units.
  split at h
  · cases h
  next hzero =>
  split at h
  · next hlt =>
    obtain ⟨hlow, hhigh⟩ := byte_one_iff.mpr ⟨hzero, hlt⟩
    exact ⟨[b], b.toNat, rest, rfl, .one hlow hhigh, h⟩
  split at h
  · next htwo =>
    obtain ⟨x, rfl⟩ := leadTwo_iff.mp htwo
    split at h
    · next b₁ rest' =>
      split at h
      · next hcont =>
        obtain ⟨y, rfl⟩ := isContinuation_iff.mp hcont
        rw [value_two] at h
        exact ⟨_, _, rest', rfl, .two x y, h⟩
      · cases h
    · cases h
  split at h
  · next hthree =>
    obtain ⟨x, rfl⟩ := leadThree_iff.mp hthree
    split at h
    · next b₁ b₂ rest' =>
      split at h
      · next hcont =>
        obtain ⟨hcont, hcont'⟩ := Bool.and_eq_true_iff.mp hcont
        obtain ⟨y, rfl⟩ := isContinuation_iff.mp hcont
        obtain ⟨z, rfl⟩ := isContinuation_iff.mp hcont'
        rw [value_three] at h
        exact ⟨_, _, rest', rfl, .three x y z, h⟩
      · cases h
    · cases h
  · cases h

theorem written_of_unitsFrom (h : unitsFrom done bytes = .ok us) :
    ∃ more, us = done.reverse ++ more ∧ Written bytes more := by
  -- A unit takes one to three bytes, so the induction is on the number of those that are left.
  induction hn : bytes.length using Nat.strongRecOn generalizing done bytes with
  | ind n ih =>
    cases bytes with
    | nil =>
      rw [unitsFrom] at h
      exact ⟨[], by simpa using (Except.ok.inj h).symm, .nil⟩
    | cons b rest =>
      obtain ⟨unit, u, rest', hbytes, hunit, hrest⟩ := unitsFrom_cons_eq_ok h
      have hlt : rest'.length < n := by
        have hpos := hunit.length_pos
        rw [← hn, hbytes, List.length_append]
        omega
      obtain ⟨more, rfl, hmore⟩ := ih _ hlt hrest rfl
      rw [hbytes]
      exact ⟨u :: more, by simp, .cons hunit hmore⟩

theorem unitsFrom_eq_ok_iff :
    unitsFrom done bytes = .ok us ↔ ∃ more, us = done.reverse ++ more ∧ Written bytes more := by
  constructor
  · exact written_of_unitsFrom
  · rintro ⟨more, rfl, hwritten⟩
    induction hwritten generalizing done with
    | nil => rw [unitsFrom, List.append_nil]
    | @cons bytes rest u us hunit _ ih =>
      rw [unitsFrom_writtenUnit hunit, ih, List.reverse_cons, List.append_assoc]
      rfl

theorem units_eq_ok_iff : units bytes = .ok us ↔ Written bytes us := by
  rw [units, unitsFrom_eq_ok_iff]
  simp

/-! ### Characters from units -/

theorem isHigh_iff : isHigh u = true ↔ High u := by
  simp only [isHigh, High, Bool.and_eq_true, decide_eq_true_eq]
  omega

theorem isLow_iff : isLow u = true ↔ Low u := by
  simp only [isLow, Low, Bool.and_eq_true, decide_eq_true_eq]
  omega

theorem unitChar_of_surrogate (h : High u ∨ Low u) : unitChar u = '\ufffd' := by
  rw [← isHigh_iff, ← isLow_iff] at h
  rw [unitChar, if_pos (Bool.or_eq_true_iff.mpr h)]

theorem charsOfUnits_cons (h : ¬ (High u ∧ ∃ v ∈ us.head?, Low v)) :
    charsOfUnits (u :: us) = unitChar u :: charsOfUnits us := by
  cases us with
  | nil => rfl
  | cons v us =>
    -- Only a high surrogate in front of a low one takes the other branch.
    rw [charsOfUnits, if_neg]
    rw [Bool.and_eq_true, isHigh_iff, isLow_iff]
    simpa using h

theorem pairChar_eq {high low : Nat} {c : Char}
    (h : c.toNat = 0x10000 + (high - 0xD800) * 0x400 + (low - 0xDC00)) : pairChar high low = c := by
  have hcode : (high - 0xD800) * 1024 + (low - 0xDC00) + 0x10000 = c.toNat := by omega
  rw [pairChar, hcode, Char.ofNat_toNat]

theorem toNat_pairChar {high low : Nat} (hhigh : High high) (hlow : Low low) :
    (pairChar high low).toNat = 0x10000 + (high - 0xD800) * 0x400 + (low - 0xDC00) := by
  obtain ⟨hhigh, hhigh'⟩ := hhigh
  obtain ⟨hlow, hlow'⟩ := hlow
  rw [pairChar, toNat_ofNat_of_valid (.inr (by omega))]
  omega

theorem Utf16.charsOfUnits {cs : List Char} (h : Utf16 us cs) : charsOfUnits us = cs := by
  induction h with
  | nil => rfl
  | @char c us cs _ _ ih => rw [charsOfUnits_toNat, ih]
  | @pair high low c us cs hhigh hlow hc _ ih =>
    rw [ModifiedUtf8.charsOfUnits, isHigh_iff.mpr hhigh, isLow_iff.mpr hlow, pairChar_eq hc, ih]
    rfl
  | lone hsurrogate hunpaired _ ih =>
    rw [charsOfUnits_cons hunpaired, unitChar_of_surrogate hsurrogate, ih]

/-- A unit that does not start a pair is a character or replaced by one. -/
theorem utf16_cons {cs : List Char} (hu : u < 0x10000) (h : ¬ (High u ∧ ∃ v ∈ us.head?, Low v))
    (hrest : Utf16 us cs) : Utf16 (u :: us) (unitChar u :: cs) := by
  by_cases hsurrogate : High u ∨ Low u
  · rw [unitChar_of_surrogate hsurrogate]
    exact .lone hsurrogate h hrest
  · have hvalid : u.isValidChar := by
      unfold High Low at hsurrogate
      show _ ∨ _
      omega
    have htoNat := toNat_ofNat_of_valid hvalid
    rw [← isHigh_iff, ← isLow_iff, ← Bool.or_eq_true] at hsurrogate
    rw [unitChar, if_neg hsurrogate]
    have hchar := Utf16.char (c := Char.ofNat u) (by omega) hrest
    rwa [htoNat] at hchar

theorem utf16_charsOfUnits (h : ∀ u ∈ us, u < 0x10000) : Utf16 us (charsOfUnits us) := by
  fun_induction charsOfUnits us with
  | case1 => exact .nil
  | case2 u => exact utf16_cons (h u List.mem_cons_self) (by simp) .nil
  | case3 u v rest hpair ih =>
    rw [Bool.and_eq_true, isHigh_iff, isLow_iff] at hpair
    exact .pair hpair.1 hpair.2 (toNat_pairChar hpair.1 hpair.2) (ih (by grind))
  | case4 u v rest hpair ih =>
    rw [Bool.and_eq_true, isHigh_iff, isLow_iff] at hpair
    exact utf16_cons (h u List.mem_cons_self) (by simpa using hpair) (ih (by grind))

/-! ### Texts -/

theorem decode_eq_ok_iff {text : String} :
    decode bytes = .ok text ↔ ∃ us, Written bytes us ∧ Utf16 us text.toList := by
  rw [decode_eq]
  constructor
  · intro h
    cases hunits : units bytes with
    | error e =>
      rw [hunits] at h
      nomatch h
    | ok us =>
      rw [hunits] at h
      obtain rfl : String.ofList (charsOfUnits us) = text := Except.ok.inj h
      have hwritten := units_eq_ok_iff.mp hunits
      rw [String.toList_ofList]
      exact ⟨us, hwritten, utf16_charsOfUnits hwritten.lt⟩
  · rintro ⟨us, hwritten, hchars⟩
    rw [units_eq_ok_iff.mpr hwritten]
    show Except.ok (String.ofList (charsOfUnits us)) = _
    rw [hchars.charsOfUnits, String.ofList_toList]

/-- **Decoding is exact.** A byte string is decoded exactly if it is made of units, whether or not
    all of its bytes are plain ones, and the text is then the one that these units have in
    UTF-16. -/
theorem decode_iff_written (bytes : List UInt8) :
    ((∃ text, decode bytes = .ok text) ↔ ∃ us, Written bytes us) ∧
      ∀ text, decode bytes = .ok text ↔ ∃ us, Written bytes us ∧ Utf16 us text.toList := by
  refine ⟨⟨?_, ?_⟩, fun text => decode_eq_ok_iff⟩
  · rintro ⟨text, htext⟩
    obtain ⟨us, hwritten, -⟩ := decode_eq_ok_iff.mp htext
    exact ⟨us, hwritten⟩
  · rintro ⟨us, hwritten⟩
    refine ⟨String.ofList (charsOfUnits us), decode_eq_ok_iff.mpr ⟨us, hwritten, ?_⟩⟩
    rw [String.toList_ofList]
    exact utf16_charsOfUnits hwritten.lt

-- A high surrogate that meets another one is lost, the second one has its partner; a character may
-- be written longer than it need be.
example : decode [0xED, 0xA0, 0xBD, 0xED, 0xA0, 0xBD, 0xED, 0xB8, 0x80, 0xC1, 0x81] =
    .ok "\ufffd😀A" := by
  rfl

end ClassAudit.ModifiedUtf8
