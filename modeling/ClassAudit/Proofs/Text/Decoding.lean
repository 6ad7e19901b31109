import ClassAudit.Proofs.Text.Utf8
import ClassAudit.Text.ByteString

/-! # Reading bytes as text

    Reading the bytes of a text gives the text, and bytes that are read as a text are its bytes. So a
    text and its byte string say the same.
-/

namespace ClassAudit.Text

/-! ### One character -/

theorem toNat_lt_of_char (c : Char) : c.val.toNat < 0x110000 := by
  have hvalid := c.valid
  simp only [UInt32.isValidChar, Nat.isValidChar] at hvalid
  omega

theorem check_eq_some_iff {least code width : Nat} {c : Char} {n : Nat} :
    firstChar?.check least code width = some (c, n) ↔
      c.val.toNat = code ∧ least ≤ code ∧ n = width := by
  unfold firstChar?.check
  by_cases hvalid : code.isValidChar
  · by_cases hleast : least ≤ code
    · rw [dif_pos hvalid, if_pos hleast, Option.some.injEq, Prod.mk.injEq]
      constructor
      · rintro ⟨rfl, rfl⟩
        refine ⟨?_, hleast, rfl⟩
        exact UInt32.toNat_ofNatLT ..
      · rintro ⟨rfl, -, rfl⟩
        refine ⟨?_, rfl⟩
        apply Char.ext
        rw [← UInt32.toNat_inj]
        exact UInt32.toNat_ofNatLT ..
    · rw [dif_pos hvalid, if_neg hleast]
      constructor
      · intro h
        nomatch h
      · intro h
        exact absurd h.2.1 hleast
  · rw [dif_neg hvalid]
    constructor
    · intro h
      nomatch h
    · rintro ⟨rfl, -⟩
      exact absurd c.valid hvalid

theorem trailing?_eq_some_iff {b : UInt8} {x : Nat} :
    trailing? b = some x ↔ b.toNat = x + 0x80 ∧ x < 0x40 := by
  have hlow : (0x80 : UInt8) ≤ b ↔ 0x80 ≤ b.toNat := UInt8.le_iff_toNat_le
  have hhigh : b < (0xc0 : UInt8) ↔ b.toNat < 0xc0 := UInt8.lt_iff_toNat_lt
  unfold trailing?
  split
  · next h =>
    rw [hlow, hhigh] at h
    rw [Option.some.injEq]
    omega
  · next h =>
    rw [hlow, hhigh] at h
    constructor
    · intro h
      nomatch h
    · omega

theorem firstChar?_cons (a : UInt8) (rest : List UInt8) :
    firstChar? (a :: rest) =
      if a.toNat < 0x80 then some (Char.ofNat a.toNat, 1)
      else if a.toNat < 0xc0 then none
      else if a.toNat < 0xe0 then
        match rest.take 1 |>.mapM trailing? with
        | some [x] => firstChar?.check 0x80 (0x40 * (a.toNat - 0xc0) + x) 2
        | _ => none
      else if a.toNat < 0xf0 then
        match rest.take 2 |>.mapM trailing? with
        | some [x, y] => firstChar?.check 0x800 (0x1000 * (a.toNat - 0xe0) + 0x40 * x + y) 3
        | _ => none
      else if a.toNat < 0xf8 then
        match rest.take 3 |>.mapM trailing? with
        | some [x, y, z] => firstChar?.check 0x10000
            (0x40000 * (a.toNat - 0xf0) + 0x1000 * x + 0x40 * y + z) 4
        | _ => none
      else none := by
  simp only [firstChar?, UInt8.lt_iff_toNat_lt]
  rfl

theorem firstChar?_append (c : Char) (rest : List UInt8) :
    firstChar? (String.utf8EncodeChar c ++ rest) =
      some (c, (String.utf8EncodeChar c).length) := by
  have hmax := toNat_lt_of_char c
  have hbyte : ∀ n < 0x100, (UInt8.ofNat n).toNat = n := fun n hn => by
    rw [UInt8.toNat_ofNat']
    omega
  -- What the byte of a continued character adds.
  have htrailing : ∀ n < 0x40, trailing? (.ofNat (n + 0x80)) = some n := fun n hn => by
    rw [trailing?_eq_some_iff, hbyte _ (by omega)]
    omega
  have hchar : Char.ofNat c.val.toNat = c := Char.ofNat_toNat c
  simp only [String.utf8EncodeChar]
  generalize hv : c.val.toNat = v at *
  split_ifs with h₁ h₂ h₃
  · rw [List.singleton_append, firstChar?_cons, hbyte v (by omega), if_pos (by omega), hchar]
    rfl
  · rw [List.cons_append, List.singleton_append, firstChar?_cons, hbyte _ (by omega),
      if_neg (by omega), if_neg (by omega), if_pos (by omega)]
    simp only [List.take_succ_cons, List.take_zero, List.mapM_cons, List.mapM_nil,
      htrailing _ (show v % 64 < 0x40 by omega)]
    exact check_eq_some_iff.mpr ⟨by omega, by omega, rfl⟩
  · rw [List.cons_append, List.cons_append, List.singleton_append, firstChar?_cons,
      hbyte _ (by omega), if_neg (by omega), if_neg (by omega), if_neg (by omega),
      if_pos (by omega)]
    simp only [List.take_succ_cons, List.take_zero, List.mapM_cons, List.mapM_nil,
      htrailing _ (show v % 64 < 0x40 by omega), htrailing _ (show v / 64 % 64 < 0x40 by omega)]
    exact check_eq_some_iff.mpr ⟨by omega, by omega, rfl⟩
  · rw [List.cons_append, List.cons_append, List.cons_append, List.singleton_append,
      firstChar?_cons, hbyte _ (by omega), if_neg (by omega), if_neg (by omega),
      if_neg (by omega), if_neg (by omega), if_pos (by omega)]
    simp only [List.take_succ_cons, List.take_zero, List.mapM_cons, List.mapM_nil,
      htrailing _ (show v % 64 < 0x40 by omega), htrailing _ (show v / 64 % 64 < 0x40 by omega),
      htrailing _ (show v / 4096 % 64 < 0x40 by omega)]
    exact check_eq_some_iff.mpr ⟨by omega, by omega, rfl⟩

theorem take_mapM_trailing? {rest : List UInt8} {k : Nat} {xs : List Nat}
    (h : (rest.take k).mapM trailing? = some xs) (hlength : xs.length = k) :
    ∃ back, rest = xs.map (fun x => UInt8.ofNat (x + 0x80)) ++ back ∧ ∀ x ∈ xs, x < 0x40 := by
  induction k generalizing rest xs with
  | zero => exact ⟨rest, by rw [List.eq_nil_of_length_eq_zero hlength]; simp⟩
  | succ k ih =>
    cases rest with
    | nil =>
      simp only [List.take_nil, List.mapM_nil] at h
      obtain rfl := Option.some.inj h
      simp at hlength
    | cons b rest =>
      rw [List.take_succ_cons, List.mapM_cons] at h
      obtain ⟨x, hx, h⟩ := Option.bind_eq_some_iff.mp h
      obtain ⟨xs', hxs, h⟩ := Option.bind_eq_some_iff.mp h
      obtain rfl : x :: xs' = xs := Option.some.inj h
      obtain ⟨back, hback, hbound⟩ := ih hxs (by simpa using hlength)
      rw [trailing?_eq_some_iff] at hx
      have hb : b = UInt8.ofNat (x + 0x80) := by
        rw [← UInt8.toNat_inj, UInt8.toNat_ofNat', hx.1]
        omega
      refine ⟨back, by rw [hb, hback]; rfl, ?_⟩
      intro y hy
      rcases List.mem_cons.mp hy with rfl | hy
      · exact hx.2
      · exact hbound y hy

/-- A character that is read is the one that the bytes start with. -/
theorem exists_append_of_firstChar? {bytes : List UInt8} {c : Char} {n : Nat}
    (h : firstChar? bytes = some (c, n)) :
    n = (String.utf8EncodeChar c).length ∧ ∃ rest, bytes = String.utf8EncodeChar c ++ rest := by
  cases bytes with
  | nil => nomatch h
  | cons a rest =>
    have hbyte : ∀ n, a.toNat = n → a = UInt8.ofNat n := fun n hn => by
      rw [← hn, UInt8.ofNat_toNat]
    rw [firstChar?_cons] at h
    split_ifs at h with h₁ h₂ h₃ h₄ h₅
    · obtain ⟨hc, hn⟩ := Prod.mk.inj (Option.some.inj h)
      have hval : c.val.toNat = a.toNat := by
        have hvalid : a.toNat.isValidChar := Or.inl (by omega)
        rw [← hc, Char.ofNat, dif_pos hvalid]
        exact UInt32.toNat_ofNatLT ..
      have henc : String.utf8EncodeChar c = [a] := by
        simp only [String.utf8EncodeChar, hval]
        rw [if_pos (by omega), UInt8.ofNat_toNat]
      exact ⟨by rw [henc, ← hn]; rfl, rest, by rw [henc]; rfl⟩
    · split at h
      · next x hx =>
        obtain ⟨back, rfl, hbound⟩ := take_mapM_trailing? hx rfl
        obtain ⟨hcode, hleast, hn⟩ := check_eq_some_iff.mp h
        have hx40 := hbound x (by simp)
        have henc : String.utf8EncodeChar c = [a, .ofNat (x + 0x80)] := by
          have hfirst : c.val.toNat / 64 % 32 + 192 = a.toNat := by omega
          have hsecond : c.val.toNat % 64 = x := by omega
          simp only [String.utf8EncodeChar]
          rw [if_neg (by omega), if_pos (by omega), hfirst, hsecond, UInt8.ofNat_toNat]
        exact ⟨by rw [henc, hn]; rfl, back, by rw [henc]; rfl⟩
      · nomatch h
    · split at h
      · next x y hxy =>
        obtain ⟨back, rfl, hbound⟩ := take_mapM_trailing? hxy rfl
        obtain ⟨hcode, hleast, hn⟩ := check_eq_some_iff.mp h
        have hx40 := hbound x (by simp)
        have hy40 := hbound y (by simp)
        have henc : String.utf8EncodeChar c = [a, .ofNat (x + 0x80), .ofNat (y + 0x80)] := by
          have hfirst : c.val.toNat / 4096 % 16 + 224 = a.toNat := by omega
          have hsecond : c.val.toNat / 64 % 64 = x := by omega
          have hthird : c.val.toNat % 64 = y := by omega
          simp only [String.utf8EncodeChar]
          rw [if_neg (by omega), if_neg (by omega), if_pos (by omega), hfirst, hsecond, hthird,
            UInt8.ofNat_toNat]
        exact ⟨by rw [henc, hn]; rfl, back, by rw [henc]; rfl⟩
      · nomatch h
    · split at h
      · next x y z hxyz =>
        obtain ⟨back, rfl, hbound⟩ := take_mapM_trailing? hxyz rfl
        obtain ⟨hcode, hleast, hn⟩ := check_eq_some_iff.mp h
        have hx40 := hbound x (by simp)
        have hy40 := hbound y (by simp)
        have hz40 := hbound z (by simp)
        have hmax := toNat_lt_of_char c
        have henc : String.utf8EncodeChar c =
            [a, .ofNat (x + 0x80), .ofNat (y + 0x80), .ofNat (z + 0x80)] := by
          have hfirst : c.val.toNat / 262144 % 8 + 240 = a.toNat := by omega
          have hsecond : c.val.toNat / 4096 % 64 = x := by omega
          have hthird : c.val.toNat / 64 % 64 = y := by omega
          have hfourth : c.val.toNat % 64 = z := by omega
          simp only [String.utf8EncodeChar]
          rw [if_neg (by omega), if_neg (by omega), if_neg (by omega), hfirst, hsecond, hthird,
            hfourth, UInt8.ofNat_toNat]
        exact ⟨by rw [henc, hn]; rfl, back, by rw [henc]; rfl⟩
      · nomatch h

/-! ### Texts -/

theorem length_le_flatMap (cs : List Char) :
    cs.length ≤ (cs.flatMap String.utf8EncodeChar).length := by
  induction cs with
  | nil => exact Nat.le_refl 0
  | cons c cs ih =>
    have hone : 0 < (String.utf8EncodeChar c).length :=
      List.length_pos_iff.mpr String.utf8EncodeChar_ne_nil
    rw [List.flatMap_cons, List.length_append, List.length_cons]
    omega

theorem length_toList_le (s : String) : s.toList.length ≤ (utf8 s).length + 1 := by
  rw [utf8_eq_flatMap]
  exact Nat.le_succ_of_le (length_le_flatMap s.toList)

theorem exists_cons_of_flatMap (c : Char) (cs : List Char) :
    ∃ b bytes, (c :: cs).flatMap String.utf8EncodeChar = b :: bytes := by
  rw [List.flatMap_cons]
  cases henc : String.utf8EncodeChar c with
  | nil => exact absurd henc String.utf8EncodeChar_ne_nil
  | cons b bytes => exact ⟨b, _, rfl⟩

theorem ofUtf8?_go_flatMap (cs : List Char) (fuel : Nat) (done : List Char)
    (hfuel : cs.length ≤ fuel) :
    ofUtf8?.go fuel (cs.flatMap String.utf8EncodeChar) done =
      some (String.ofList (done.reverse ++ cs)) := by
  induction cs generalizing fuel done with
  | nil => cases fuel <;> simp [ofUtf8?.go]
  | cons c cs ih =>
    obtain _ | fuel := fuel
    · simp at hfuel
    obtain ⟨b, bytes, hbytes⟩ := exists_cons_of_flatMap c cs
    have hfirst := firstChar?_append c (cs.flatMap String.utf8EncodeChar)
    rw [← List.flatMap_cons, hbytes] at hfirst
    rw [hbytes, ofUtf8?.go, hfirst]
    · simp only [← hbytes, List.flatMap_cons, List.drop_left]
      rw [ih fuel _ (by simpa using hfuel)]
      simp
    · simp

theorem ofUtf8?_utf8 (s : String) : ofUtf8? (utf8 s) = some s := by
  have hgo := ofUtf8?_go_flatMap s.toList _ [] (length_toList_le s)
  rw [← utf8_eq_flatMap, List.reverse_nil, List.nil_append, String.ofList_toList] at hgo
  exact hgo

theorem eq_of_ofUtf8?_go {fuel : Nat} {bytes : List UInt8} {done : List Char} {s : String}
    (h : ofUtf8?.go fuel bytes done = some s) :
    ∃ cs, s = String.ofList (done.reverse ++ cs) ∧ bytes = cs.flatMap String.utf8EncodeChar := by
  induction fuel generalizing bytes done with
  | zero =>
    cases bytes with
    | nil => exact ⟨[], by rw [← Option.some.inj h, List.append_nil], rfl⟩
    | cons b bytes => nomatch h
  | succ fuel ih =>
    cases bytes with
    | nil => exact ⟨[], by rw [← Option.some.inj h, List.append_nil], rfl⟩
    | cons b bytes =>
      rw [ofUtf8?.go] at h
      · split at h
        · next c n hfirst =>
          obtain ⟨rfl, rest, hrest⟩ := exists_append_of_firstChar? hfirst
          rw [hrest, List.drop_left] at h
          obtain ⟨cs, rfl, rfl⟩ := ih h
          exact ⟨c :: cs, by simp, hrest⟩
        · nomatch h
      · simp

theorem utf8_of_ofUtf8? {bytes : List UInt8} {s : String} (h : ofUtf8? bytes = some s) :
    utf8 s = bytes := by
  obtain ⟨cs, hs, hbytes⟩ := eq_of_ofUtf8?_go h
  rw [utf8_eq_flatMap, hs, String.toList_ofList, hbytes]
  rfl

theorem symbols_go_flatMap (cs : List Char) (fuel : Nat) (done : List Symbol)
    (hfuel : cs.length ≤ fuel) :
    symbols.go fuel (cs.flatMap String.utf8EncodeChar) done =
      done.reverse ++ cs.map Symbol.char := by
  induction cs generalizing fuel done with
  | nil => cases fuel <;> simp [symbols.go]
  | cons c cs ih =>
    obtain _ | fuel := fuel
    · simp at hfuel
    obtain ⟨b, bytes, hbytes⟩ := exists_cons_of_flatMap c cs
    have hfirst := firstChar?_append c (cs.flatMap String.utf8EncodeChar)
    rw [← List.flatMap_cons, hbytes] at hfirst
    rw [hbytes, symbols.go, hfirst]
    simp only [← hbytes, List.flatMap_cons, List.drop_left]
    rw [ih fuel _ (by simpa using hfuel)]
    simp

theorem symbols_utf8 (s : String) : symbols (utf8 s) = s.toList.map Symbol.char := by
  have hgo := symbols_go_flatMap s.toList _ [] (length_toList_le s)
  rw [← utf8_eq_flatMap] at hgo
  exact hgo

theorem ofUtf8Lossy_utf8 (s : String) : ofUtf8Lossy (utf8 s) = s := by
  have hshown : Symbol.shown ∘ Symbol.char = id := rfl
  rw [ofUtf8Lossy, symbols_utf8, List.map_map, hshown, List.map_id, String.ofList_toList]

end ClassAudit.Text

namespace ClassAudit.ByteString

theorem shown_ofString (s : String) : (ofString s).shown = s :=
  Text.ofUtf8Lossy_utf8 s

theorem ofString_inj {s t : String} : ofString s = ofString t ↔ s = t := by
  refine ⟨fun h => ?_, fun h => congrArg _ h⟩
  rw [← shown_ofString s, h, shown_ofString]

end ClassAudit.ByteString
