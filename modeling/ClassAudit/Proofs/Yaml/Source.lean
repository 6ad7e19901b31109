import ClassAudit.Proofs.Text.Decoding
import ClassAudit.Yaml.Source

/-! # The characters of a text in UTF-8

    However the bytes of a text are cut into pieces, the source of the text has its characters, and
    no piece shows a fault.
-/

namespace ClassAudit.Yaml

variable {c : Char} {part rest : List UInt8} {cs : List Char}

open Text (firstChar?_append)

/-! ### Heads -/

namespace Encoding

/-- The first byte of a character tells the number of its bytes. -/
theorem sizeOfFirst?_head (c : Char) (rest : List UInt8) :
    (String.utf8EncodeChar c ++ rest).head?.bind sizeOfFirst? =
      some (String.utf8EncodeChar c).length := by
  have hmax := Text.toNat_lt_of_char c
  have hbyte : ∀ n < 0x100, (UInt8.ofNat n).toNat = n := fun n hn => by
    rw [UInt8.toNat_ofNat']
    omega
  have hlt : ∀ n < 0x100, ∀ m < 0x100, UInt8.ofNat n < UInt8.ofNat m ↔ n < m :=
    fun n hn m hm => by rw [UInt8.lt_iff_toNat_lt, hbyte n hn, hbyte m hm]
  have hsize : ∀ n < 0xf8, sizeOfFirst? (.ofNat n) =
      if n < 0x80 then some 1 else if n < 0xc0 then none else if n < 0xe0 then some 2
      else if n < 0xf0 then some 3 else some 4 := by
    intro n hn
    have h80 := hlt n (by omega) 0x80 (by omega)
    have hc0 := hlt n (by omega) 0xc0 (by omega)
    have he0 := hlt n (by omega) 0xe0 (by omega)
    have hf0 := hlt n (by omega) 0xf0 (by omega)
    have hf8 : UInt8.ofNat n < 0xf8 := (hlt n (by omega) 0xf8 (by omega)).mpr hn
    unfold sizeOfFirst?
    simp only [if_pos hf8]
    exact ite_congr (propext h80) (fun _ => rfl) fun _ =>
      ite_congr (propext hc0) (fun _ => rfl) fun _ =>
      ite_congr (propext he0) (fun _ => rfl) fun _ =>
      ite_congr (propext hf0) (fun _ => rfl) fun _ => rfl
  simp only [String.utf8EncodeChar]
  generalize c.val.toNat = v at *
  split_ifs with h₁ h₂ h₃
  · show sizeOfFirst? _ = _
    rw [hsize v (by omega), if_pos (by omega)]
    rfl
  · show sizeOfFirst? _ = _
    rw [hsize _ (by omega), if_neg (by omega), if_neg (by omega), if_pos (by omega)]
    rfl
  · show sizeOfFirst? _ = _
    rw [hsize _ (by omega), if_neg (by omega), if_neg (by omega), if_neg (by omega),
      if_pos (by omega)]
    rfl
  · show sizeOfFirst? _ = _
    rw [hsize _ (by omega), if_neg (by omega), if_neg (by omega), if_neg (by omega),
      if_neg (by omega)]
    rfl

theorem length_utf8EncodeChar_le (c : Char) : (String.utf8EncodeChar c).length ≤ 4 := by
  simp only [String.utf8EncodeChar]
  split_ifs <;> simp

theorem head_char (h : isAllowed c = true) (rest : List UInt8) :
    head utf8 ((String.utf8EncodeChar c ++ rest).take 4) =
      .char c (String.utf8EncodeChar c).length := by
  have hle := length_utf8EncodeChar_le c
  have htake : (String.utf8EncodeChar c ++ rest).take 4 = String.utf8EncodeChar c ++
      rest.take (4 - (String.utf8EncodeChar c).length) := by
    rw [List.take_append, List.take_of_length_le hle]
  rw [htake]
  unfold head
  simp only [sizeOfFirst?_head]
  rw [if_neg (by simp), List.take_left, ← List.append_nil (String.utf8EncodeChar c),
    firstChar?_append]
  simp [allowed, h]

theorem head_cut (hpart : part ≠ []) (h : String.utf8EncodeChar c = part ++ rest)
    (hrest : rest ≠ []) : head utf8 (part.take 4) = .cut := by
  have hle := length_utf8EncodeChar_le c
  have hlength : (String.utf8EncodeChar c).length = part.length + rest.length := by
    rw [h, List.length_append]
  have hrest' := List.length_pos_iff.mpr hrest
  have hhead := sizeOfFirst?_head c []
  obtain ⟨b, bytes, rfl⟩ := List.exists_cons_of_ne_nil hpart
  rw [List.append_nil, h] at hhead
  have hsize : (b :: bytes).head?.bind sizeOfFirst? = some (b :: bytes ++ rest).length := hhead
  unfold head
  rw [List.take_of_length_le (by omega)]
  simp only [hsize]
  rw [if_pos (by rw [List.length_append]; omega)]

end Encoding

/-! ### Pieces -/

/-- Bytes are the first part of a character, without its end. -/
def IsPart (part : List UInt8) : Prop :=
  part = [] ∨ ∃ c rest, rest ≠ [] ∧ String.utf8EncodeChar c = part ++ rest

theorem IsPart.length_lt (h : IsPart part) : part.length < 4 := by
  rcases h with rfl | ⟨c, rest, hrest, henc⟩
  · decide
  · have hle := Encoding.length_utf8EncodeChar_le c
    have hpos := List.length_pos_iff.mpr hrest
    rw [henc, List.length_append] at hle
    omega

theorem decodePiece_go (hallowed : ∀ c ∈ cs, isAllowed c = true) (hpart : IsPart part) {fuel : Nat}
    (hfuel : cs.length < fuel) (done : List Char) :
    decodePiece.go .utf8 fuel (cs.flatMap String.utf8EncodeChar ++ part) done =
      (done.reverse ++ cs, some part) := by
  induction cs generalizing fuel done with
  | nil =>
    obtain _ | fuel := fuel
    · omega
    cases part with
    | nil => simp [decodePiece.go]
    | cons b part =>
      rcases hpart with hnil | ⟨c, rest, hrest, henc⟩
      · nomatch hnil
      · rw [List.flatMap_nil, List.nil_append, decodePiece.go,
          Encoding.head_cut (List.cons_ne_nil _ _) henc hrest]
        · simp
        · simp
  | cons c cs ih =>
    obtain ⟨hc, hcs⟩ := List.forall_mem_cons.mp hallowed
    obtain _ | fuel := fuel
    · omega
    obtain ⟨b, bytes, hbytes⟩ := Text.exists_cons_of_flatMap c cs
    have hhead := Encoding.head_char hc (cs.flatMap String.utf8EncodeChar ++ part)
    rw [← List.append_assoc, ← List.flatMap_cons, hbytes] at hhead
    rw [hbytes, List.cons_append, decodePiece.go, ← List.cons_append, hhead]
    · simp only [← hbytes, List.flatMap_cons, List.append_assoc, List.drop_left]
      rw [ih hcs (by simpa using hfuel)]
      simp
    · simp

theorem decodePiece_eq (hallowed : ∀ c ∈ cs, isAllowed c = true) (hpart : IsPart part) :
    decodePiece .utf8 (cs.flatMap String.utf8EncodeChar ++ part) = (cs, some part) := by
  have hle := Text.length_le_flatMap cs
  refine decodePiece_go hallowed hpart ?_ []
  rw [List.length_append]
  omega

/-- Wherever bytes of characters are cut, whole characters and the first part of one stand in front
    of the cut. Where the bytes end, no character is cut apart. -/
theorem exists_cut {piece : List UInt8} (h : piece ++ rest = cs.flatMap String.utf8EncodeChar) :
    ∃ front back part, cs = front ++ back ∧
      piece = front.flatMap String.utf8EncodeChar ++ part ∧
      part ++ rest = back.flatMap String.utf8EncodeChar ∧ IsPart part ∧
      (rest = [] → part = [] ∧ back = []) := by
  induction cs generalizing piece with
  | nil =>
    rw [List.flatMap_nil, List.append_eq_nil_iff] at h
    exact ⟨[], [], [], rfl, h.1, h.2, .inl rfl, fun _ => ⟨rfl, rfl⟩⟩
  | cons c cs ih =>
    rw [List.flatMap_cons] at h
    by_cases hle : (String.utf8EncodeChar c).length ≤ piece.length
    · -- The character lies in front of the cut.
      have hpiece : piece = String.utf8EncodeChar c ++
          piece.drop (String.utf8EncodeChar c).length := by
        have htake := congrArg (List.take (String.utf8EncodeChar c).length) h
        rw [List.take_append_of_le_length hle, List.take_left] at htake
        conv => lhs; rw [← List.take_append_drop (String.utf8EncodeChar c).length piece, htake]
      rw [hpiece, List.append_assoc] at h
      obtain ⟨front, back, part, rfl, hfront, hback, hpart⟩ := ih (List.append_cancel_left h)
      refine ⟨c :: front, back, part, rfl, ?_, hback, hpart⟩
      rw [hpiece, hfront, List.flatMap_cons, List.append_assoc]
    · refine ⟨[], c :: cs, piece, rfl, rfl, by rw [h, List.flatMap_cons],
        .inr ⟨c, (String.utf8EncodeChar c).drop piece.length, ?_, ?_⟩, ?_⟩
      · intro hnil
        have hlength := congrArg List.length hnil
        rw [List.length_drop, List.length_nil] at hlength
        omega
      · have htake := congrArg (List.take piece.length) h
        rw [List.take_left, List.take_append_of_le_length (by omega)] at htake
        conv => rhs; lhs; rw [htake]
        rw [List.take_append_drop]
      · intro hnil
        have hlength := congrArg List.length h
        rw [hnil, List.append_nil, List.length_append] at hlength
        omega

/-! ### Sources -/

namespace Source

theorem ofBytes_go (hallowed : ∀ c ∈ cs, isAllowed c = true) {fuel : Nat} {piece : List UInt8}
    (h : piece ++ rest = cs.flatMap String.utf8EncodeChar) (hfuel : rest.length < fuel)
    (done : List (List Char)) (count : Nat) {pieces : List Piece}
    (hsound : ∀ p ∈ pieces, p.sound = true) :
    ∃ pieces', ofBytes.go .utf8 fuel piece rest done count pieces =
        ⟨done.reverse.flatten ++ cs, pieces'⟩ ∧ ∀ p ∈ pieces', p.sound = true := by
  induction fuel generalizing cs piece rest done count pieces with
  | zero => omega
  | succ fuel ih =>
    obtain ⟨front, back, part, rfl, rfl, hback, hpart, hend⟩ := exists_cut h
    have hfront : ∀ c ∈ front, isAllowed c = true := fun c hc =>
      hallowed c (List.mem_append_left _ hc)
    have hmore : ∀ p ∈ (⟨count + front.length, true⟩ : Piece) :: pieces, p.sound = true :=
      List.forall_mem_cons.mpr ⟨rfl, hsound⟩
    rw [ofBytes.go, decodePiece_eq hfront hpart]
    simp only
    by_cases hrest : rest = []
    · obtain ⟨rfl, rfl⟩ := hend hrest
      refine ⟨((⟨count + front.length, true⟩ : Piece) :: pieces).reverse, ?_, ?_⟩
      · simp [hrest]
      · intro p hp
        exact hmore p (List.mem_reverse.mp hp)
    · have hlength := hpart.length_lt
      have hpos := List.length_pos_iff.mpr hrest
      have hnext : (part ++ rest.take (pieceSize - part.length)) ++
          rest.drop (pieceSize - part.length) = back.flatMap String.utf8EncodeChar := by
        rw [List.append_assoc, List.take_append_drop, hback]
      have hshorter : (rest.drop (pieceSize - part.length)).length < fuel := by
        rw [List.length_drop]
        unfold pieceSize
        omega
      obtain ⟨pieces', hgo, hall⟩ := ih (fun c hc => hallowed c (List.mem_append_right _ hc)) hnext
        hshorter (front :: done) (count + front.length) hmore
      refine ⟨pieces', ?_, hall⟩
      rw [if_neg (by simpa using hrest), hgo]
      simp

/-- A text that starts with a small character is decoded whole. -/
theorem ofBytes_utf8 (hsmall : c.toNat < 0x80) (hallowed : ∀ d ∈ c :: cs, isAllowed d = true) :
    ∃ pieces, ofBytes ((c :: cs).flatMap String.utf8EncodeChar) = ⟨c :: cs, pieces⟩ ∧
      ∀ p ∈ pieces, p.sound = true := by
  have hval : c.val.toNat < 0x80 := hsmall
  -- The first byte is no part of a byte-order mark.
  have hdetect : Encoding.detect ((c :: cs).flatMap String.utf8EncodeChar) = (.utf8, 0) := by
    have henc : String.utf8EncodeChar c = [.ofNat c.val.toNat] := Text.utf8EncodeChar_of_lt hsmall
    have hne : ∀ n, 0x80 ≤ n → n < 0x100 → UInt8.ofNat c.val.toNat ≠ .ofNat n := by
      intro n hn hn' heq
      have := congrArg UInt8.toNat heq
      rw [UInt8.toNat_ofNat', UInt8.toNat_ofNat'] at this
      omega
    rw [List.flatMap_cons, henc, List.singleton_append]
    unfold Encoding.detect
    split
    · next heq => exact absurd (List.cons.inj heq).1 (hne 0xff (by omega) (by omega))
    · next heq => exact absurd (List.cons.inj heq).1 (hne 0xfe (by omega) (by omega))
    · next heq => exact absurd (List.cons.inj heq).1 (hne 0xef (by omega) (by omega))
    · rfl
  unfold ofBytes
  rw [hdetect]
  refine ofBytes_go hallowed ?_ ?_ [] 0 (fun p hp => nomatch hp)
  · rw [List.drop_zero, List.take_append_drop]
  · rw [List.length_drop]
    omega

end Source

end ClassAudit.Yaml
