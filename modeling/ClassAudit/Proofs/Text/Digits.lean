import Mathlib.Algebra.Group.Nat.Defs
import ClassAudit.Yaml.Print

/-! # Digits read back

    The digits of a number give it back, whatever the base. Upper-case hexadecimal digits do so
    after zeros too, and the characters of base 64 give the bytes, with line feeds anywhere
    between them.
-/

namespace ClassAudit.Text

/-! ### Digits to any base -/

/-- The digits of a number, read from the first one on, give it back. -/
theorem foldlM_toDigits {m : Type → Type} [Monad m] [LawfulMonad m] {b : Nat} (hb : 1 < b)
    {f : Nat → Char → m Nat} (hf : ∀ k, ∀ d < b, f k d.digitChar = pure (b * k + d)) (n : Nat) :
    (Nat.toDigits b n).foldlM f 0 = pure n := by
  induction n using Nat.strongRecOn with
  | ind n ih =>
    rw [Nat.toDigits_eq_if hb]
    by_cases hlt : n < b
    · rw [if_pos hlt]
      simp [hf 0 n hlt]
    · have hrest := ih (n / b) (Nat.div_lt_self (by omega) hb)
      have hlast := hf (n / b) (n % b) (Nat.mod_lt n (by omega))
      rw [Nat.div_add_mod] at hlast
      rw [if_neg hlt, List.foldlM_append, hrest]
      simp [hlast]

theorem exists_digit_of_mem_toDigits {b n : Nat} (hb : 1 < b) {c : Char}
    (h : c ∈ Nat.toDigits b n) : ∃ d < b, c = d.digitChar := by
  induction n using Nat.strongRecOn with
  | ind n ih =>
    rw [Nat.toDigits_eq_if hb] at h
    by_cases hlt : n < b
    · rw [if_pos hlt] at h
      exact ⟨n, hlt, by simpa using h⟩
    · rw [if_neg hlt] at h
      rcases List.mem_append.mp h with h | h
      · exact ih (n / b) (Nat.div_lt_self (by omega) hb) h
      · exact ⟨n % b, Nat.mod_lt n (by omega), by simpa using h⟩

/-! ### Hexadecimal digits -/

theorem hexValue?_toUpper_digitChar {d : Nat} (h : d < 16) :
    hexValue? d.digitChar.toUpper = some d := by
  have hall : ∀ d < 16, hexValue? (Nat.digitChar d).toUpper = some d := by decide
  exact hall d h

theorem hexNumber?_upperHex (width n : Nat) :
    hexNumber? (Yaml.upperHex width n).toList = some n := by
  have hzeros : ∀ k, ((List.replicate k '0').map Char.toUpper).foldlM
      (fun m c => (hexValue? c).map (16 * m + ·)) 0 = some 0 := by
    intro k
    induction k with
    | zero => rfl
    | succ k ih =>
      rw [List.replicate_succ, List.map_cons, List.foldlM_cons]
      exact ih
  rw [Yaml.upperHex, hex, String.toList_ofList, String.toList_ofList, List.map_append, hexNumber?,
    List.foldlM_append, hzeros, Option.bind_eq_bind, Option.bind_some, List.foldlM_map]
  refine foldlM_toDigits (by decide) (fun k d hd => ?_) n
  rw [hexValue?_toUpper_digitChar hd]
  rfl

theorem length_upperHex {width n : Nat} (hwidth : 0 < width) (h : n < 16 ^ width) :
    (Yaml.upperHex width n).toList.length = width := by
  have hle := (Nat.length_toDigits_le_iff (by omega) hwidth).mpr h
  rw [Yaml.upperHex, hex, String.toList_ofList, String.toList_ofList, List.length_map,
    List.length_append, List.length_replicate]
  omega

theorem exists_digit_of_mem_upperHex {width n : Nat} {c : Char}
    (h : c ∈ (Yaml.upperHex width n).toList) : ∃ d < 16, c = d.digitChar.toUpper := by
  rw [Yaml.upperHex, hex, String.toList_ofList, String.toList_ofList, List.mem_map] at h
  obtain ⟨e, he, rfl⟩ := h
  rcases List.mem_append.mp he with he | he
  · exact ⟨0, by omega, by rw [List.eq_of_mem_replicate he]; rfl⟩
  · obtain ⟨d, hd, rfl⟩ := exists_digit_of_mem_toDigits (by decide) he
    exact ⟨d, hd, rfl⟩

/-! ### Base 64 -/

/-- A character that bytes are written with in base 64. -/
def isBase64 (c : Char) : Bool :=
  c.isAlphanum || c == '+' || c == '/' || c == '='

/-- The characters of the alphabet are looked at one by one. -/
theorem base64Char_spec (n : Nat) :
    base64Value? (base64Char n) = some (n % 64) ∧ isBase64 (base64Char n) = true := by
  have hall : ∀ m < 64, base64Value? (base64Char m) = some m ∧ isBase64 (base64Char m) = true := by
    decide +kernel
  have hmod : base64Char n = base64Char (n % 64) := by
    rw [base64Char, base64Char, Nat.mod_mod]
  rw [hmod]
  exact hall (n % 64) (Nat.mod_lt n (by omega))

theorem base64Value?_base64Char (n : Nat) : base64Value? (base64Char n) = some (n % 64) :=
  (base64Char_spec n).1

theorem isBase64_base64Char (n : Nat) : isBase64 (base64Char n) = true :=
  (base64Char_spec n).2

theorem base64Char_ne_equals (n : Nat) : base64Char n ≠ '=' := by
  intro h
  have hvalue := base64Value?_base64Char n
  rw [h] at hvalue
  nomatch hvalue

theorem ofNat_toNat_eq {n : Nat} {a : UInt8} (h : n % 256 = a.toNat) : UInt8.ofNat n = a :=
  (UInt8.ofNat_eq_iff_mod_eq_toNat n a).mpr h

theorem base64Bytes?_toBase64 (bytes : List UInt8) :
    base64Bytes? (toBase64 bytes) = some bytes := by
  induction bytes using toBase64.induct with
  | case1 => rfl
  | case2 a =>
    have ha := a.toNat_lt
    have hfirst : UInt8.ofNat ((0x40 * (0x10 * a.toNat / 0x40 % 64) + 0x10 * a.toNat % 64) / 0x10) =
        a := ofNat_toNat_eq (by omega)
    simp only [toBase64, base64Bytes?, base64Value?_base64Char, Option.bind_eq_bind,
      Option.bind_some, Option.pure_def, hfirst]
  | case3 a b =>
    have ha := a.toNat_lt
    have hb := b.toNat_lt
    have hne := base64Char_ne_equals (4 * (0x100 * a.toNat + b.toNat))
    generalize hn : 4 * (0x100 * a.toNat + b.toNat) = n at hne
    have hfirst : UInt8.ofNat ((0x1000 * (n / 0x1000 % 64) + 0x40 * (n / 0x40 % 64) + n % 64) / 0x400)
        = a := ofNat_toNat_eq (by omega)
    have hsecond : UInt8.ofNat ((0x1000 * (n / 0x1000 % 64) + 0x40 * (n / 0x40 % 64) + n % 64) / 4)
        = b := ofNat_toNat_eq (by omega)
    rw [toBase64]
    simp only [hn]
    rw [base64Bytes?]
    · simp only [base64Value?_base64Char, Option.bind_eq_bind, Option.bind_some, Option.pure_def,
        hfirst, hsecond]
    · exact fun h => hne h
  | case4 a b c rest ih =>
    have ha := a.toNat_lt
    have hb := b.toNat_lt
    have hc := c.toNat_lt
    have hne := base64Char_ne_equals (0x10000 * a.toNat + 0x100 * b.toNat + c.toNat)
    generalize hn : 0x10000 * a.toNat + 0x100 * b.toNat + c.toNat = n at hne
    generalize hm : 0x40000 * (n / 0x40000 % 64) + 0x1000 * (n / 0x1000 % 64) +
      0x40 * (n / 0x40 % 64) + n % 64 = m
    have hmn : m = n := by omega
    have hfirst : UInt8.ofNat (m / 0x10000) = a := ofNat_toNat_eq (by omega)
    have hsecond : UInt8.ofNat (m / 0x100) = b := ofNat_toNat_eq (by omega)
    have hthird : UInt8.ofNat m = c := ofNat_toNat_eq (by omega)
    rw [toBase64]
    simp only [hn]
    rw [base64Bytes?]
    · simp only [base64Value?_base64Char, Option.bind_eq_bind, Option.bind_some, Option.pure_def,
        ih, hm, hfirst, hsecond, hthird]
    · exact fun _ h => absurd h hne
    · exact fun h => absurd h hne

theorem isBase64_of_mem {bytes : List UInt8} {c : Char} (h : c ∈ toBase64 bytes) :
    isBase64 c = true := by
  induction bytes using toBase64.induct with
  | case1 => nomatch h
  | case2 a =>
    simp only [toBase64, List.mem_cons, List.not_mem_nil, or_false] at h
    rcases h with rfl | rfl | rfl | rfl <;> first | exact isBase64_base64Char _ | rfl
  | case3 a b =>
    simp only [toBase64, List.mem_cons, List.not_mem_nil, or_false] at h
    rcases h with rfl | rfl | rfl | rfl <;> first | exact isBase64_base64Char _ | rfl
  | case4 a b c rest ih =>
    simp only [toBase64, List.mem_cons] at h
    rcases h with rfl | rfl | rfl | rfl | h
    · exact isBase64_base64Char _
    · exact isBase64_base64Char _
    · exact isBase64_base64Char _
    · exact isBase64_base64Char _
    · exact ih h

theorem ne_of_isBase64 {c d : Char} (h : isBase64 c = true) (hd : isBase64 d = false) : c ≠ d := by
  rintro rfl
  rw [h] at hd
  nomatch hd

theorem toBase64_ne_nil {bytes : List UInt8} (h : bytes ≠ []) : toBase64 bytes ≠ [] := by
  fun_cases toBase64 bytes <;> simp at h ⊢

/-! ### Lines -/

theorem mem_wrap_go {width fuel : Nat} {cs : List Char} {c : Char}
    (h : c ∈ Yaml.wrap.go width fuel cs) : c ∈ cs ∨ c = '\n' := by
  fun_induction Yaml.wrap.go width fuel cs with
  | case1 => nomatch h
  | case2 => exact .inl h
  | case3 fuel cs hne ih =>
    rcases List.mem_append.mp h with h | h
    · exact .inl (List.mem_of_mem_take h)
    · rcases List.mem_cons.mp h with h | h
      · exact .inr h
      · exact (ih h).imp_left List.mem_of_mem_drop

theorem mem_wrap {width : Nat} {cs : List Char} {c : Char} (h : c ∈ Yaml.wrap width cs) :
    c ∈ cs ∨ c = '\n' := by
  unfold Yaml.wrap at h
  split at h
  · exact .inl h
  · exact mem_wrap_go h

theorem head?_wrap {width : Nat} (hwidth : 0 < width) (cs : List Char) :
    (Yaml.wrap width cs).head? = cs.head? := by
  unfold Yaml.wrap
  split
  · rfl
  · cases cs with
    | nil => rfl
    | cons c cs =>
      obtain _ | width := width
      · omega
      rfl

theorem base64?_wrap (width : Nat) (bytes : List UInt8) :
    base64? (String.ofList (Yaml.wrap width (toBase64 bytes))) = some bytes := by
  have hchars : ∀ c ∈ toBase64 bytes, (c != '\n' && c != '\r') = true := by
    intro c hc
    have hcode := isBase64_of_mem hc
    simp [ne_of_isBase64 hcode (d := '\n') rfl, ne_of_isBase64 hcode (d := '\r') rfl]
  have hgo : ∀ (cs : List Char), (∀ c ∈ cs, (c != '\n' && c != '\r') = true) → ∀ fuel,
      (Yaml.wrap.go width fuel cs).filter (fun c => c != '\n' && c != '\r') = cs := by
    intro cs hcs fuel
    fun_induction Yaml.wrap.go width fuel cs with
    | case1 => rfl
    | case2 => exact List.filter_eq_self.mpr hcs
    | case3 fuel cs hne ih =>
      have htake : (cs.take width).filter (fun c => c != '\n' && c != '\r') = cs.take width :=
        List.filter_eq_self.mpr fun c hc => hcs c (List.mem_of_mem_take hc)
      rw [List.filter_append, htake, List.filter_cons_of_neg (by simp),
        ih fun c hc => hcs c (List.mem_of_mem_drop hc), List.take_append_drop]
  rw [base64?, String.toList_ofList]
  unfold Yaml.wrap
  split
  · rw [List.filter_eq_self.mpr hchars, base64Bytes?_toBase64]
  · rw [hgo _ hchars, base64Bytes?_toBase64]

end ClassAudit.Text
