import Mathlib.Data.List.Basic
import ClassAudit.ClassFile.ModifiedUtf8
import ClassAudit.Proofs.Text.Utf8

/-! # Texts in modified UTF-8

    A text without NUL and without characters above U+FFFF has the same bytes in UTF-8 and in
    modified UTF-8, so that a class file reads it back from its plain bytes. `Encoded` gives the
    bytes of every text, character by character; decoding them gives the text. Units are read one
    by one, and of two units that meet no pair is made by mistake, since the unit of a character is
    never a surrogate.
-/

namespace ClassAudit.ModifiedUtf8

variable {n u : Nat} {c : Char} {bytes : List UInt8}

/-- A text whose UTF-8 is also its modified UTF-8. -/
def Plain (s : String) : Prop :=
  ∀ c ∈ s.toList, c ≠ '\x00' ∧ c.toNat < 0x10000

instance (s : String) : Decidable (Plain s) :=
  List.decidableBAll (fun c => c ≠ '\x00' ∧ c.toNat < 0x10000) s.toList

/-! ### Units from bytes -/

/-- The kinds of bytes, by their ranges. -/
theorem byte_kinds : ∀ n < 256,
    (isContinuation (.ofNat n) = true ↔ 0x80 ≤ n ∧ n < 0xC0) ∧
    (UInt8.ofNat n &&& 0xE0 = 0xC0 ↔ 0xC0 ≤ n ∧ n < 0xE0) ∧
    (UInt8.ofNat n &&& 0xF0 = 0xE0 ↔ 0xE0 ≤ n ∧ n < 0xF0) := by
  decide +kernel

theorem ofNat_lt_iff (h : n < 256) : UInt8.ofNat n < 0x80 ↔ n < 0x80 := by
  rw [UInt8.lt_iff_toNat_lt, UInt8.toNat_ofNat', Nat.mod_eq_of_lt h]
  rfl

theorem ofNat_eq_zero_iff (h : n < 256) : UInt8.ofNat n = 0 ↔ n = 0 := by
  rw [← UInt8.toNat_inj, UInt8.toNat_ofNat', Nat.mod_eq_of_lt h]
  rfl

theorem unitsFrom_unitBytes (h : u < 0x10000) (done : List Nat) (rest : List UInt8) :
    unitsFrom done (unitBytes u ++ rest) = unitsFrom (u :: done) rest := by
  unfold unitBytes
  split_ifs with h₁ h₂
  · -- One byte.
    have hzero := ofNat_eq_zero_iff (n := u) (by omega)
    have hlt := ofNat_lt_iff (n := u) (by omega)
    rw [List.cons_append, List.nil_append, unitsFrom.eq_def]
    simp only [hzero, hlt]
    rw [if_neg (by omega), if_pos (by omega), UInt8.toNat_ofNat', Nat.mod_eq_of_lt (by omega)]
  · -- A lead byte and one continuation.
    have hlead : 0xC0 + u / 64 < 256 := by omega
    have hnext : 0x80 + u % 64 < 256 := by omega
    obtain ⟨-, htwo, -⟩ := byte_kinds _ hlead
    obtain ⟨hcont, -, -⟩ := byte_kinds _ hnext
    simp only [List.cons_append, List.nil_append, unitsFrom, ofNat_eq_zero_iff hlead,
      ofNat_lt_iff hlead, htwo, hcont]
    rw [if_neg (by omega), if_neg (by omega), if_pos (by omega), if_pos (by omega)]
    simp only [payload, UInt8.toNat_ofNat']
    congr 2
    omega
  · -- A lead byte and two continuations.
    have hlead : 0xE0 + u / 4096 < 256 := by omega
    have hmid : 0x80 + u / 64 % 64 < 256 := by omega
    have hlast : 0x80 + u % 64 < 256 := by omega
    obtain ⟨-, htwo, hthree⟩ := byte_kinds _ hlead
    obtain ⟨hcont, -, -⟩ := byte_kinds _ hmid
    obtain ⟨hcont', -, -⟩ := byte_kinds _ hlast
    simp only [List.cons_append, List.nil_append, unitsFrom, ofNat_eq_zero_iff hlead,
      ofNat_lt_iff hlead, htwo, hthree, Bool.and_eq_true, hcont, hcont']
    rw [if_neg (by omega), if_neg (by omega), if_neg (by omega), if_pos (by omega),
      if_pos (by omega)]
    simp only [payload, UInt8.toNat_ofNat']
    congr 2
    omega

theorem unitsFrom_flatMap {us : List Nat} (h : ∀ u ∈ us, u < 0x10000) (done : List Nat) :
    unitsFrom done (us.flatMap unitBytes) = .ok (done.reverse ++ us) := by
  induction us generalizing done with
  | nil => rw [List.flatMap_nil, unitsFrom, List.append_nil]
  | cons u us ih =>
    rw [List.flatMap_cons, unitsFrom_unitBytes (h u List.mem_cons_self),
      ih (fun v hv => h v (List.mem_cons_of_mem u hv)), List.reverse_cons, List.append_assoc]
    rfl

/-! ### Characters from units -/

theorem toNat_range (c : Char) : c.toNat < 0xD800 ∨ 0xDFFF < c.toNat ∧ c.toNat < 0x110000 :=
  c.valid

theorem toNat_ofNat_of_valid (h : n.isValidChar) : (Char.ofNat n).toNat = n := by
  rw [Char.ofNat, dif_pos h]
  rfl

theorem isHigh_or_isLow_toNat (c : Char) : (isHigh c.toNat || isLow c.toNat) = false := by
  have hrange := toNat_range c
  simp only [isHigh, isLow, Bool.or_eq_false_iff, Bool.and_eq_false_iff, decide_eq_false_iff_not]
  omega

theorem charsOfUnits_toNat (c : Char) (us : List Nat) :
    charsOfUnits (c.toNat :: us) = c :: charsOfUnits us := by
  have hc := isHigh_or_isLow_toNat c
  have hchar : unitChar c.toNat = c := by
    unfold unitChar
    rw [hc]
    exact Char.ofNat_toNat c
  rw [Bool.or_eq_false_iff] at hc
  cases us with
  | nil =>
    show [unitChar c.toNat] = [c]
    rw [hchar]
  | cons v us =>
    rw [charsOfUnits, hc.1, hchar]
    rfl

theorem charsOfUnits_map_toNat (cs : List Char) : charsOfUnits (cs.map Char.toNat) = cs := by
  induction cs with
  | nil => rfl
  | cons c cs ih => rw [List.map_cons, charsOfUnits_toNat, ih]

/-- The units of a character give that character, whatever comes behind them. -/
theorem charsOfUnits_charUnits (c : Char) (us : List Nat) :
    charsOfUnits (charUnits c ++ us) = c :: charsOfUnits us := by
  unfold charUnits
  by_cases hbmp : c.toNat < 0x10000
  · rw [if_pos hbmp]
    exact charsOfUnits_toNat c us
  · rw [if_neg hbmp]
    have hrange := toNat_range c
    have hhigh : isHigh (0xD800 + (c.toNat - 0x10000) / 1024) = true := by
      simp only [isHigh, Bool.and_eq_true, decide_eq_true_eq]
      omega
    have hlow : isLow (0xDC00 + (c.toNat - 0x10000) % 1024) = true := by
      simp only [isLow, Bool.and_eq_true, decide_eq_true_eq]
      omega
    -- The offsets of the two halves are quotient and remainder of the same number.
    have hpair : pairChar (0xD800 + (c.toNat - 0x10000) / 1024)
        (0xDC00 + (c.toNat - 0x10000) % 1024) = c := by
      unfold pairChar
      have hcode : (0xD800 + (c.toNat - 0x10000) / 1024 - 0xD800) * 1024 +
          (0xDC00 + (c.toNat - 0x10000) % 1024 - 0xDC00) + 0x10000 = c.toNat := by omega
      rw [hcode]
      exact Char.ofNat_toNat c
    rw [List.cons_append, List.singleton_append, charsOfUnits, hhigh, hlow, hpair]
    rfl

theorem charsOfUnits_flatMap (cs : List Char) : charsOfUnits (cs.flatMap charUnits) = cs := by
  induction cs with
  | nil => rfl
  | cons c cs ih => rw [List.flatMap_cons, charsOfUnits_charUnits, ih]

theorem lt_of_mem_charUnits (h : u ∈ charUnits c) : u < 0x10000 := by
  have hrange := toNat_range c
  unfold charUnits at h
  split at h
  · rw [List.mem_singleton.mp h]
    assumption
  · simp only [List.mem_cons, List.not_mem_nil, or_false] at h
    omega

/-! ### Texts -/

theorem utf8EncodeChar_eq_unitBytes (h : c ≠ '\x00') (h' : c.toNat < 0x10000) :
    String.utf8EncodeChar c = unitBytes c.toNat := by
  have hpos : c.toNat ≠ 0 := fun hzero => h (Char.toNat_inj.mp hzero)
  have htoNat : c.toNat = c.val.toNat := rfl
  unfold String.utf8EncodeChar unitBytes
  rw [htoNat] at h' hpos ⊢
  generalize c.val.toNat = v at h' hpos
  -- Both sides choose by the same bounds, as NUL and what lies above U+FFFF are left out.
  by_cases hone : v ≤ 0x7f
  · rw [if_pos hone, if_pos (by omega)]
  · have hone' : ¬ (0 < v ∧ v < 0x80) := by omega
    rw [if_neg hone, if_neg hone']
    by_cases htwo : v ≤ 0x7ff
    · rw [if_pos htwo, if_pos (by omega)]
      simp only [List.cons.injEq, ← UInt8.toNat_inj, UInt8.toNat_ofNat', and_true]
      omega
    · have htwo' : ¬ v < 0x800 := by omega
      rw [if_neg htwo, if_neg htwo', if_pos (by omega)]
      simp only [List.cons.injEq, ← UInt8.toNat_inj, UInt8.toNat_ofNat', and_true]
      omega

theorem utf8_eq_flatMap_unitBytes {s : String} (h : Plain s) :
    Text.utf8 s = (s.toList.map Char.toNat).flatMap unitBytes := by
  rw [Text.utf8_eq_flatMap, List.flatMap_map]
  refine List.flatMap_congr fun c hc => ?_
  obtain ⟨hnul, hbmp⟩ := h c hc
  exact utf8EncodeChar_eq_unitBytes hnul hbmp

theorem isPlainByte_iff {b : UInt8} : isPlainByte b = true ↔ 0 < b.toNat ∧ b.toNat < 0x80 := by
  unfold isPlainByte
  rw [Bool.and_eq_true, bne_iff_ne, decide_eq_true_eq, UInt8.lt_iff_toNat_lt, ne_eq,
    ← UInt8.toNat_inj, Nat.pos_iff_ne_zero]
  rfl

/-- Plain bytes that are taken as they stand give what their units give. -/
theorem decode_eq (bytes : List UInt8) :
    decode bytes = (units bytes).map fun us => String.ofList (charsOfUnits us) := by
  unfold decode
  split
  · next hplain =>
    have hbyte : ∀ b ∈ bytes, 0 < b.toNat ∧ b.toNat < 0x80 := fun b hb =>
      isPlainByte_iff.mp (List.all_eq_true.mp hplain b hb)
    have hwritten : (bytes.map UInt8.toNat).flatMap unitBytes = bytes := by
      rw [List.flatMap_map]
      refine (List.flatMap_congr fun b hb => ?_).trans (List.flatMap_singleton' bytes)
      rw [unitBytes, if_pos (hbyte b hb), UInt8.ofNat_toNat]
    have hunits : units bytes = .ok (bytes.map UInt8.toNat) := by
      have hlt : ∀ u ∈ bytes.map UInt8.toNat, u < 0x10000 := by
        intro u hu
        obtain ⟨b, hb, rfl⟩ := List.mem_map.mp hu
        exact Nat.lt_trans (hbyte b hb).2 (by decide)
      have hread := unitsFrom_flatMap hlt []
      rwa [hwritten] at hread
    have hchars : bytes.map UInt8.toNat =
        (bytes.map fun b => Char.ofNat b.toNat).map Char.toNat := by
      rw [List.map_map]
      refine List.map_congr_left fun b hb => ?_
      obtain ⟨-, hlt⟩ := hbyte b hb
      exact (toNat_ofNat_of_valid (.inl (by omega))).symm
    rw [hunits, hchars]
    show _ = Except.ok (String.ofList _)
    rw [charsOfUnits_map_toNat]
  · rfl

theorem decode_flatMap_unitBytes {us : List Nat} (h : ∀ u ∈ us, u < 0x10000) :
    decode (us.flatMap unitBytes) = .ok (String.ofList (charsOfUnits us)) := by
  rw [decode_eq, units, unitsFrom_flatMap h]
  rfl

theorem decode_utf8 {s : String} (h : Plain s) : decode (Text.utf8 s) = .ok s := by
  have hunits : ∀ u ∈ s.toList.map Char.toNat, u < 0x10000 := by
    intro u hu
    obtain ⟨c, hc, rfl⟩ := List.mem_map.mp hu
    exact (h c hc).2
  rw [utf8_eq_flatMap_unitBytes h, decode_flatMap_unitBytes hunits, charsOfUnits_map_toNat,
    String.ofList_toList]

/-! ### All texts -/

/-- A number below 2^11 in two bytes: five bits and six bits. -/
def twoBytes (u : Nat) : List UInt8 :=
  [0xC0 ||| .ofNat (u >>> 6), 0x80 ||| .ofNat (u &&& 0x3F)]

/-- A number below 2^16 in three bytes: four bits, six bits and six bits. -/
def threeBytes (u : Nat) : List UInt8 :=
  [0xE0 ||| .ofNat (u >>> 12), 0x80 ||| .ofNat (u >>> 6 &&& 0x3F), 0x80 ||| .ofNat (u &&& 0x3F)]

/-- The bytes of a character, by the range that it is in. -/
inductive CharBytes : Char → List UInt8 → Prop where
  | nul : CharBytes '\x00' [0xC0, 0x80]
  | one {c : Char} : 0x01 ≤ c.toNat → c.toNat ≤ 0x7F → CharBytes c [.ofNat c.toNat]
  | two {c : Char} : 0x80 ≤ c.toNat → c.toNat ≤ 0x7FF → CharBytes c (twoBytes c.toNat)
  | three {c : Char} : 0x800 ≤ c.toNat → c.toNat ≤ 0xFFFF → CharBytes c (threeBytes c.toNat)
  /-- A character above U+FFFF: its surrogates, which share the bits of its offset. -/
  | pair {c : Char} : 0x10000 ≤ c.toNat →
      CharBytes c (threeBytes (0xD800 + (c.toNat - 0x10000) >>> 10) ++
        threeBytes (0xDC00 + ((c.toNat - 0x10000) &&& 0x3FF)))

/-- The bytes of a text, character by character. -/
inductive Encoded : List Char → List UInt8 → Prop where
  | nil : Encoded [] []
  | cons {c : Char} {cs : List Char} {bytes rest : List UInt8} :
      CharBytes c bytes → Encoded cs rest → Encoded (c :: cs) (bytes ++ rest)

/-- The marks of lead bytes and continuations lie above the bits that they mark. -/
theorem mark_or :
    (∀ n < 32, (0xC0 : UInt8) ||| .ofNat n = .ofNat (0xC0 + n)) ∧
    (∀ n < 16, (0xE0 : UInt8) ||| .ofNat n = .ofNat (0xE0 + n)) ∧
    ∀ n < 64, (0x80 : UInt8) ||| .ofNat n = .ofNat (0x80 + n) := by
  decide +kernel

theorem twoBytes_eq (h : u < 0x800) :
    twoBytes u = [.ofNat (0xC0 + u / 64), .ofNat (0x80 + u % 64)] := by
  obtain ⟨htwo, -, hcont⟩ := mark_or
  have hhigh : u >>> 6 = u / 64 := Nat.shiftRight_eq_div_pow u 6
  have hlow : u &&& 0x3F = u % 64 := Nat.and_two_pow_sub_one_eq_mod u 6
  rw [twoBytes, hhigh, hlow, htwo _ (by omega), hcont _ (by omega)]

theorem threeBytes_eq (h : u < 0x10000) :
    threeBytes u =
      [.ofNat (0xE0 + u / 4096), .ofNat (0x80 + u / 64 % 64), .ofNat (0x80 + u % 64)] := by
  obtain ⟨-, hthree, hcont⟩ := mark_or
  have hhigh : u >>> 12 = u / 4096 := Nat.shiftRight_eq_div_pow u 12
  have hmid : u >>> 6 &&& 0x3F = u / 64 % 64 := by
    rw [show u >>> 6 = u / 64 from Nat.shiftRight_eq_div_pow u 6]
    exact Nat.and_two_pow_sub_one_eq_mod (u / 64) 6
  have hlow : u &&& 0x3F = u % 64 := Nat.and_two_pow_sub_one_eq_mod u 6
  rw [threeBytes, hhigh, hmid, hlow, hthree _ (by omega), hcont _ (by omega), hcont _ (by omega)]

theorem unitBytes_of_le (h : 0x800 ≤ u) (h' : u < 0x10000) : unitBytes u = threeBytes u := by
  rw [threeBytes_eq h', unitBytes, if_neg (by omega), if_neg (by omega)]

theorem exists_charBytes (c : Char) : ∃ bytes, CharBytes c bytes := by
  by_cases hnul : c.toNat = 0
  · obtain rfl : c = '\x00' := Char.toNat_inj.mp hnul
    exact ⟨_, .nul⟩
  by_cases hone : c.toNat ≤ 0x7F
  · exact ⟨_, .one (by omega) hone⟩
  by_cases htwo : c.toNat ≤ 0x7FF
  · exact ⟨_, .two (by omega) htwo⟩
  by_cases hthree : c.toNat ≤ 0xFFFF
  · exact ⟨_, .three (by omega) hthree⟩
  · exact ⟨_, .pair (by omega)⟩

theorem CharBytes.eq_flatMap (h : CharBytes c bytes) : bytes = (charUnits c).flatMap unitBytes := by
  have hunit : c.toNat < 0x10000 → (charUnits c).flatMap unitBytes = unitBytes c.toNat := by
    intro hbmp
    rw [charUnits, if_pos hbmp, List.flatMap_singleton]
  cases h with
  | nul => rfl
  | one hlow hhigh => rw [hunit (by omega), unitBytes, if_pos (by omega)]
  | two hlow hhigh =>
    rw [hunit (by omega), unitBytes, if_neg (by omega), if_pos (by omega), twoBytes_eq (by omega)]
  | three hlow hhigh => rw [hunit (by omega), unitBytes_of_le hlow (by omega)]
  | pair hlow =>
    have hrange := toNat_range c
    -- Shift and mask are the quotient and the remainder that the units have.
    have hdiv : (c.toNat - 0x10000) >>> 10 = (c.toNat - 0x10000) / 1024 :=
      Nat.shiftRight_eq_div_pow _ 10
    have hmod : (c.toNat - 0x10000) &&& 0x3FF = (c.toNat - 0x10000) % 1024 :=
      Nat.and_two_pow_sub_one_eq_mod _ 10
    rw [hdiv, hmod, charUnits, if_neg (by omega), List.flatMap_cons, List.flatMap_singleton,
      unitBytes_of_le (by omega) (by omega), unitBytes_of_le (by omega) (by omega)]

theorem charBytes_iff : CharBytes c bytes ↔ bytes = (charUnits c).flatMap unitBytes := by
  constructor
  · exact CharBytes.eq_flatMap
  · intro h
    obtain ⟨bytes', hbytes⟩ := exists_charBytes c
    rw [h, ← hbytes.eq_flatMap]
    exact hbytes

theorem encoded_iff {cs : List Char} :
    Encoded cs bytes ↔ bytes = cs.flatMap fun c => (charUnits c).flatMap unitBytes := by
  constructor
  · intro h
    induction h with
    | nil => rfl
    | cons hchar _ ih => rw [ih, charBytes_iff.mp hchar, List.flatMap_cons]
  · rintro rfl
    induction cs with
    | nil => exact .nil
    | cons c cs ih => exact .cons (charBytes_iff.mpr rfl) ih

/-- Decoding undoes the encoding of every text. The bytes that `encode` gives are the only ones
    that the format has for the text, and they are read as the text again. -/
theorem decode_encode (s : String) :
    (∀ bytes, Encoded s.toList bytes ↔ bytes = encode s) ∧ decode (encode s) = .ok s := by
  refine ⟨fun bytes => encoded_iff, ?_⟩
  have hbytes : encode s = (s.toList.flatMap charUnits).flatMap unitBytes := by
    rw [encode, List.flatMap_assoc]
  have hunits : ∀ u ∈ s.toList.flatMap charUnits, u < 0x10000 := by
    intro u hu
    obtain ⟨c, -, hmem⟩ := List.mem_flatMap.mp hu
    exact lt_of_mem_charUnits hmem
  rw [hbytes, decode_flatMap_unitBytes hunits, charsOfUnits_flatMap, String.ofList_toList]

example : encode "A\x00é€😀" =
    [0x41, 0xC0, 0x80, 0xC3, 0xA9, 0xE2, 0x82, 0xAC, 0xED, 0xA0, 0xBD, 0xED, 0xB8, 0x80] := by
  rfl

end ClassAudit.ModifiedUtf8
