import Mathlib.Tactic.SplitIfs
import ClassAudit.Text.Utf8

/-! # Bytes of texts

    The bytes of a text are those of its characters one after the other, and comparing two texts
    by their bytes is the same as comparing them by their characters. A byte below 128 stands for
    itself only.
-/

namespace ClassAudit.Text

/-! ### Characters one after the other -/

theorem toList_loop_eq (b : ByteArray) (n i : Nat) (done : List UInt8) (h : i + n = b.size) :
    ByteArray.toList.loop b i done = done.reverse ++ b.data.toList.drop i := by
  induction n generalizing i done with
  | zero =>
    unfold ByteArray.toList.loop
    have hlen : b.data.toList.length ≤ i := by
      simpa [← ByteArray.size_data] using Nat.le_of_eq h.symm
    rw [if_neg (by omega), List.drop_eq_nil_of_le hlen, List.append_nil]
  | succ n ih =>
    have hi : i < b.data.size := by
      rw [ByteArray.size_data]
      omega
    have hget : b.get! i = b.data[i] := getElem!_pos b.data i hi
    unfold ByteArray.toList.loop
    rw [if_pos (by omega), ih (i + 1) _ (by omega), hget,
      List.drop_eq_getElem_cons (i := i) (by simpa using hi)]
    simp

theorem toList_eq_data_toList (b : ByteArray) : b.toList = b.data.toList := by
  unfold ByteArray.toList
  rw [toList_loop_eq b b.size 0 [] (Nat.zero_add _)]
  rfl

theorem utf8_eq_flatMap (s : String) : utf8 s = s.toList.flatMap String.utf8EncodeChar := by
  unfold utf8
  rw [String.toUTF8_eq_toByteArray, toList_eq_data_toList, ← String.utf8Encode_toList,
    List.utf8Encode, List.toList_data_toByteArray]

theorem length_utf8 (s : String) : (utf8 s).length = s.utf8ByteSize := by
  unfold utf8
  rw [toList_eq_data_toList, Array.length_toList, ByteArray.size_data,
    String.toUTF8_eq_toByteArray, String.size_toByteArray]

/-! ### Bytes of one character -/

theorem toNat_of_mem_utf8EncodeChar {c : Char} {b : UInt8} (h : b ∈ String.utf8EncodeChar c)
    (hb : b.toNat < 128) : c.toNat = b.toNat := by
  have hmax : c.val.toNat < 1114112 := by
    have := c.valid
    simp only [UInt32.isValidChar, Nat.isValidChar] at this
    omega
  change c.val.toNat = b.toNat
  simp only [String.utf8EncodeChar] at h
  generalize c.val.toNat = v at *
  split_ifs at h <;>
    simp only [List.mem_cons, List.not_mem_nil, or_false, ← UInt8.toNat_inj,
      UInt8.toNat_ofNat'] at h <;>
    omega

theorem eq_of_mem_utf8EncodeChar {c d : Char} (hc : c.toNat < 128)
    (h : UInt8.ofNat c.toNat ∈ String.utf8EncodeChar d) : d = c := by
  have hnat : (UInt8.ofNat c.toNat).toNat = c.toNat := by
    rw [UInt8.toNat_ofNat']
    omega
  have heq := toNat_of_mem_utf8EncodeChar h (by omega)
  exact Char.toNat_inj.mp (heq.trans hnat)

theorem mem_of_mem_utf8 {s : String} {c : Char} (hc : c.toNat < 128)
    (h : UInt8.ofNat c.toNat ∈ utf8 s) : c ∈ s.toList := by
  rw [utf8_eq_flatMap, List.mem_flatMap] at h
  obtain ⟨d, hd, hmem⟩ := h
  rwa [← eq_of_mem_utf8EncodeChar hc hmem]

theorem utf8EncodeChar_of_lt {c : Char} (hc : c.toNat < 128) :
    String.utf8EncodeChar c = [UInt8.ofNat c.toNat] := by
  have hle : c.val.toNat ≤ 127 := Nat.le_of_lt_succ hc
  rw [String.utf8EncodeChar, if_pos hle]
  rfl

theorem mem_of_flatMap_eq_cons {c : Char} {cs : List Char} {b : UInt8} {bytes : List UInt8}
    (h : (c :: cs).flatMap String.utf8EncodeChar = b :: bytes) : b ∈ String.utf8EncodeChar c := by
  rw [List.flatMap_cons] at h
  cases henc : String.utf8EncodeChar c with
  | nil => exact absurd henc String.utf8EncodeChar_ne_nil
  | cons b' back =>
    rw [henc] at h
    rw [(List.cons.inj h).1]
    exact List.mem_cons_self

theorem exists_cons_of_flatMap_eq_cons {c : Char} (hc : c.toNat < 128) {cs : List Char}
    {bytes : List UInt8} (h : cs.flatMap String.utf8EncodeChar = UInt8.ofNat c.toNat :: bytes) :
    ∃ rest, cs = c :: rest ∧ bytes = rest.flatMap String.utf8EncodeChar := by
  cases cs with
  | nil => nomatch h
  | cons d rest =>
    obtain rfl := eq_of_mem_utf8EncodeChar hc (mem_of_flatMap_eq_cons h)
    rw [List.flatMap_cons, utf8EncodeChar_of_lt hc] at h
    exact ⟨rest, rfl, (List.cons.inj h).2.symm⟩

/-! ### Cutting -/

section Cutting

variable {α : Type} [DecidableEq α] {separator : α}

theorem splitOn_cons (a : α) (as : List α) :
    (a :: as).splitOn separator =
      if a = separator then [] :: as.splitOn separator
      else (as.splitOn separator).modifyHead (a :: ·) := by
  simp [List.splitOn, List.splitOnP_cons_eq_if_modifyHead]

theorem splitOn_append_of_not_mem {front : List α} (h : separator ∉ front) (back : List α) :
    (front ++ back).splitOn separator = (back.splitOn separator).modifyHead (front ++ ·) := by
  induction front with
  | nil =>
    rw [List.nil_append]
    cases back.splitOn separator <;> rfl
  | cons a front ih =>
    obtain ⟨hne, hfront⟩ : a ≠ separator ∧ separator ∉ front := by
      simpa [eq_comm] using h
    rw [List.cons_append, splitOn_cons, if_neg hne, ih hfront, List.modifyHead_modifyHead]
    rfl

theorem not_mem_of_mem_splitOn {as part : List α} (h : part ∈ as.splitOn separator) :
    separator ∉ part := by
  induction as generalizing part with
  | nil =>
    rw [List.splitOn_nil, List.mem_singleton] at h
    rw [h]
    exact List.not_mem_nil
  | cons a as ih =>
    rw [splitOn_cons] at h
    by_cases ha : a = separator
    · rw [if_pos ha] at h
      rcases List.mem_cons.mp h with rfl | h
      · exact List.not_mem_nil
      · exact ih h
    · rw [if_neg ha] at h
      cases hparts : as.splitOn separator with
      | nil => exact absurd hparts (List.splitOnP_ne_nil _ _)
      | cons first parts =>
        rw [hparts] at h ih
        rcases List.mem_cons.mp h with rfl | h
        · have hfirst := ih List.mem_cons_self
          simp [hfirst, Ne.symm ha]
        · exact ih (List.mem_cons_of_mem _ h)

end Cutting

/-- The bytes of a text are cut at a small character where the text is. -/
theorem splitOn_flatMap {c : Char} (hc : c.toNat < 128) (cs : List Char) :
    (cs.flatMap String.utf8EncodeChar).splitOn (UInt8.ofNat c.toNat) =
      (cs.splitOn c).map (·.flatMap String.utf8EncodeChar) := by
  induction cs with
  | nil => rfl
  | cons d cs ih =>
    rw [List.flatMap_cons, splitOn_cons]
    by_cases hd : d = c
    · rw [hd, utf8EncodeChar_of_lt hc, List.singleton_append, splitOn_cons, if_pos rfl, if_pos rfl,
        ih]
      rfl
    · have hmem : UInt8.ofNat c.toNat ∉ String.utf8EncodeChar d := fun hmem =>
        hd (eq_of_mem_utf8EncodeChar hc hmem)
      rw [splitOn_append_of_not_mem hmem, ih, if_neg hd]
      cases cs.splitOn c with
      | nil => rfl
      | cons part parts => simp

/-! ### Order -/

/-- Two different characters differ in a byte that both encodings have, so that what comes after
    them does not matter. -/
theorem utf8EncodeChar_append_lt {c d : Char} (h : c < d) (xs ys : List UInt8) :
    String.utf8EncodeChar c ++ xs < String.utf8EncodeChar d ++ ys := by
  have hlt : c.val.toNat < d.val.toNat := h
  have hmax : d.val.toNat < 1114112 := by
    have := d.valid
    simp only [UInt32.isValidChar, Nat.isValidChar] at this
    omega
  simp only [String.utf8EncodeChar]
  generalize c.val.toNat = v at *
  generalize d.val.toNat = w at *
  -- What connects the digits to base 64.
  have hv : v / 64 / 64 = v / 4096 ∧ v / 4096 / 64 = v / 262144 := by omega
  have hw : w / 64 / 64 = w / 4096 ∧ w / 4096 / 64 = w / 262144 := by omega
  split_ifs <;>
    simp (disch := omega) only [List.cons_append, List.nil_append, List.cons_lt_cons_iff,
      UInt8.lt_iff_toNat_lt, ← UInt8.toNat_inj, UInt8.toNat_ofNat', Nat.mod_eq_of_lt] <;>
    omega

theorem flatMap_utf8EncodeChar_lt {cs ds : List Char} (h : cs < ds) :
    cs.flatMap String.utf8EncodeChar < ds.flatMap String.utf8EncodeChar := by
  induction h with
  | @nil d ds =>
    rw [List.flatMap_nil, List.flatMap_cons]
    cases henc : String.utf8EncodeChar d with
    | nil => exact absurd henc String.utf8EncodeChar_ne_nil
    | cons b bs => exact List.nil_lt_cons b _
  | rel hlt => exact utf8EncodeChar_append_lt hlt _ _
  | cons _ ih => exact List.append_left_lt ih

theorem utf8_lt_iff {s t : String} : utf8 s < utf8 t ↔ s < t := by
  rw [utf8_eq_flatMap, utf8_eq_flatMap]
  refine ⟨fun h => ?_, fun h => flatMap_utf8EncodeChar_lt h⟩
  by_cases hgt : t < s
  · exact absurd h (List.lt_asymm (flatMap_utf8EncodeChar_lt hgt))
  · by_cases hlt : s < t
    · exact hlt
    · have heq : s = t := String.le_antisymm (String.not_lt.mp hgt) (String.not_lt.mp hlt)
      exact absurd (heq ▸ h) (List.lt_irrefl _)

end ClassAudit.Text
