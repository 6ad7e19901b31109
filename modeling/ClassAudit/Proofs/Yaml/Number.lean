import ClassAudit.Proofs.Timestamp
import ClassAudit.Proofs.Yaml.Decode
import ClassAudit.Proofs.Yaml.Document

/-! # Numbers and points in time read back

    Numbers and points in time are written as plain scalars. What starts with a digit is one of
    them, and a word. A natural number of less than 64 bits and a point in time that there is are
    read back from their scalars.
-/

namespace ClassAudit.Yaml

open TokenStream

/-! ### What they stand for -/

theorem implicitValue_of_digit {s : String} {c : Char} {cs : List Char} (hs : s.toList = c :: cs)
    (hc : c.isDigit = true) (withTime : Bool) :
    implicitValue withTime s = (numberValue? withTime s).getD (.text s) := by
  have hdigit : s.toList.head?.any Char.isDigit = true := by simp [hs, hc]
  have hword : wordValue? s = none := by
    unfold wordValue?
    split <;> first
      | rfl
      | exact absurd hdigit (by decide)
  have hpoint : c ≠ '.' := by
    rintro rfl
    nomatch hc
  rw [implicitValue, hword, hs]
  simp [hpoint, hc]

theorem digitValue?_digitChar {d : Nat} (h : d < 10) : digitValue? d.digitChar = some d := by
  have hall : ∀ d < 10, digitValue? (Nat.digitChar d) = some d := by decide
  exact hall d h

theorem digitsValue?_toDigits (n : Nat) : digitsValue? 10 (Nat.toDigits 10 n) = some n := by
  refine Text.foldlM_toDigits (by decide) (fun k d hd => ?_) n
  simp [digitValue?_digitChar hd, hd]

theorem exists_digit_cons_toDigits (n : Nat) :
    ∃ d ds, Nat.toDigits 10 n = d :: ds ∧ d.isDigit = true := by
  obtain ⟨d, ds, hds⟩ := List.exists_cons_of_ne_nil (Nat.toDigits_ne_nil (b := 10) (n := n))
  refine ⟨d, ds, hds, ?_⟩
  exact Timestamp.isDigit_of_mem_toDigits (n := n) (by rw [hds]; exact List.mem_cons_self)

theorem head?_toDigits {n : Nat} (h : n ≠ 0) : (Nat.toDigits 10 n).head? ≠ some '0' := by
  induction n using Nat.strongRecOn with
  | ind n ih =>
    rw [Nat.toDigits_eq_if (by omega)]
    by_cases hlt : n < 10
    · have hall : ∀ d < 10, d ≠ 0 → [Nat.digitChar d].head? ≠ some '0' := by decide
      rw [if_pos hlt]
      exact hall n hlt h
    · rw [if_neg hlt, List.head?_append_of_ne_nil _ (Nat.toDigits_ne_nil)]
      exact ih (n / 10) (by omega) (by omega)

theorem unsigned?_toDigits (n : Nat) : unsigned? none (Nat.toDigits 10 n) = some n := by
  by_cases hzero : n = 0
  · rw [hzero]
    rfl
  -- A zero in front would say that the base is another one.
  · have hhead := head?_toDigits hzero
    obtain ⟨d, ds, hds, -⟩ := exists_digit_cons_toDigits n
    have hd : d ≠ '0' := by simpa [hds] using hhead
    rw [← digitsValue?_toDigits n, hds]
    unfold unsigned?
    split
    · simp_all
    · simp_all
    · simp_all
    · rfl

theorem integer?_toDigits {n : Nat} (h : n < 0x10000000000000000) :
    integer? none (Nat.toDigits 10 n) = some (n : Int) := by
  obtain ⟨d, ds, hds, hd⟩ := exists_digit_cons_toDigits n
  have hvalue := unsigned?_toDigits n
  rw [hds] at hvalue ⊢
  have hminus : d ≠ '-' := by rintro rfl; nomatch hd
  have hplus : d ≠ '+' := by rintro rfl; nomatch hd
  unfold integer?
  split
  next signed negative rest heq =>
    split at heq
    · next heq' => exact absurd (List.cons.inj heq').1 hminus
    · next heq' => exact absurd (List.cons.inj heq').1 hplus
    · obtain ⟨rfl, rfl, rfl⟩ : false = signed ∧ false = negative ∧ d :: ds = rest := by
        simpa using heq
      simp [hvalue, h]

theorem toList_toString (n : Nat) : (toString n).toList = Nat.toDigits 10 n := by
  show (Nat.repr n).toList = _
  rw [Nat.repr, String.toList_ofList]

/-- A natural number is read back from its digits, if it has no more than 64 bits. -/
theorem implicitValue_nat {n : Nat} (h : n < 0x10000000000000000) (withTime : Bool) :
    implicitValue withTime (toString n) = .int n := by
  have hdigits : ∀ c ∈ Nat.toDigits 10 n, c.isDigit = true := fun _ =>
    Timestamp.isDigit_of_mem_toDigits
  obtain ⟨d, ds, hds, hd⟩ := exists_digit_cons_toDigits n
  -- A point in time is tried first.
  have htime : Timestamp.parseLiberal? (toString n) = none := by
    refine Timestamp.parseLiberal?_eq_none fun hmem => ?_
    rw [toList_toString] at hmem
    nomatch hdigits '-' hmem
  have hplain : (Nat.toDigits 10 n).filter (· != '_') = Nat.toDigits 10 n := by
    refine List.filter_eq_self.mpr fun c hc => ?_
    rw [bne_iff_ne]
    rintro rfl
    nomatch hdigits '_' hc
  rw [implicitValue_of_digit ((toList_toString n).trans hds) hd, numberValue?, htime,
    toList_toString, hplain, integer?_toDigits h]
  simp

theorem implicitValue_time {t : Timestamp} (h : t.Valid) : implicitValue true t.text = .time t := by
  obtain ⟨d, cs, hcs, hd⟩ := t.exists_digit_cons_text
  rw [implicitValue_of_digit hcs hd, numberValue?, if_pos rfl, Timestamp.parseLiberal?_text h]
  rfl

theorem impliedTag_of_digit {s : String} {c : Char} {cs : List Char} (hs : s.toList = c :: cs)
    (hc : c.isDigit = true) : impliedTag s .plain = (implicitValue true s).tag := by
  have hmerge : s ≠ "<<" := by
    rintro rfl
    obtain ⟨rfl, -⟩ := List.cons.inj hs
    nomatch hc
  rw [impliedTag, if_pos rfl, if_neg hmerge]

theorem exists_digit_cons_toString (n : Nat) :
    ∃ d cs, (toString n).toList = d :: cs ∧ d.isDigit = true := by
  rw [toList_toString]
  exact exists_digit_cons_toDigits n

theorem impliedTag_nat {n : Nat} (h : n < 0x10000000000000000) :
    impliedTag (toString n) .plain = "!!int" := by
  obtain ⟨d, cs, hcs, hd⟩ := exists_digit_cons_toString n
  rw [impliedTag_of_digit hcs hd, implicitValue_nat h]
  rfl

theorem impliedTag_time {t : Timestamp} (h : t.Valid) :
    impliedTag t.text .plain = "!!timestamp" := by
  obtain ⟨d, cs, hcs, hd⟩ := t.exists_digit_cons_text
  rw [impliedTag_of_digit hcs hd, implicitValue_time h]
  rfl

/-! ### Words -/

variable {step column : Nat} {v : Value} {word : List Char}

theorem isPlainWord_of_isTimeChar {d : Char} {cs : List Char} (hd : d.isDigit = true)
    (hchars : ∀ c ∈ d :: cs, Timestamp.isTimeChar c = true)
    (hlast : (d :: cs).getLast? ≠ some ':') : isPlainWord (d :: cs) = true := by
  refine isPlainWord_iff.mpr ⟨by simp [isNameChar, Char.isAlphanum, hd], hlast, fun c hc => ?_⟩
  have hc := hchars c hc
  rw [Timestamp.isTimeChar, Bool.or_eq_true] at hc
  rcases hc with hdigit | hsign
  · have hname : isNameChar c = true := by simp [isNameChar, Char.isAlphanum, hdigit]
    exact ⟨isBlank_of_isNameChar hname, isBreak_of_isNameChar hname, isSpecial_of_isNameChar hname⟩
  · have hcheck : (['-', 'T', ':', '.', 'Z', '+'].all fun c =>
        !isBlank c && !isBreak c && !isSpecial c) = true := by decide
    have hc := List.all_eq_true.mp hcheck c (List.contains_iff_mem.mp hsign)
    simpa [and_assoc] using hc

/-- A value that is written as a word, and that is read back from the word. -/
structure LaidWord (v : Value) (word : List Char) : Prop where
  isPlainWord : isPlainWord word = true
  written : ∀ step column, (v.written step column false).toList = ' ' :: (word ++ ['\n'])
  kinds : v.kinds = [.scalar (String.ofList word) .plain]
  yields : Yields v.kinds v.shownBy

theorem LaidWord.laid (h : LaidWord v word) : Laid step column 0 v := by
  refine ⟨?_, h.yields⟩
  have hne : word ≠ [] := by
    obtain ⟨d, cs, rfl⟩ := exists_cons_of_isPlainWord h.isPlainWord
    exact List.cons_ne_nil d cs
  rw [h.written, h.kinds]
  exact spoken_plain hne (plainAllowed_of_isPlainWord h.isPlainWord)

theorem lineFeed_not_mem_of_isPlainWord (h : isPlainWord word = true) : '\n' ∉ word := by
  intro hmem
  obtain ⟨d, cs, rfl⟩ := exists_cons_of_isPlainWord h
  obtain ⟨-, -, hchars⟩ := isPlainWord_iff.mp h
  nomatch (hchars '\n' hmem).2.1

theorem LaidWord.lineFeed_not_mem (h : LaidWord v word) : '\n' ∉ word :=
  lineFeed_not_mem_of_isPlainWord h.isPlainWord

theorem laidWord_time (t : Timestamp) : LaidWord (.time t) t.text.toList where
  isPlainWord := by
    obtain ⟨d, cs, hcs, hd⟩ := t.exists_digit_cons_text
    have hlast := t.getLast?_text
    have hchars : ∀ c ∈ t.text.toList, Timestamp.isTimeChar c = true := fun _ =>
      Timestamp.isTimeChar_of_mem_text
    rw [hcs] at hlast hchars ⊢
    exact isPlainWord_of_isTimeChar hd hchars hlast
  written step column := by simp [Value.written]
  kinds := by rw [Value.kinds, String.ofList_toList]
  yields := yields_scalar t.text .plain

/-! ### Numbers with a sign -/

theorem isPlainWord_toString (n : Nat) : isPlainWord (toString n).toList = true := by
  obtain ⟨d, cs, hcs, hd⟩ := exists_digit_cons_toString n
  have hdigits : ∀ c ∈ (toString n).toList, c.isDigit = true := fun c hc =>
    Timestamp.isDigit_of_mem_toDigits (by rwa [← toList_toString])
  rw [hcs] at hdigits ⊢
  refine isPlainWord_of_isTimeChar hd (fun c hc => Timestamp.isTimeChar_of_isDigit (hdigits c hc))
    fun hlast => ?_
  nomatch hdigits ':' (List.mem_of_getLast? hlast)

/-- A number is a word, or one behind a minus. -/
theorem toList_toString_int (n : Int) :
    (toString n).toList = (toString n.natAbs).toList ∨
      (toString n).toList = '-' :: (toString n.natAbs).toList := by
  cases n with
  | ofNat n => exact .inl rfl
  | negSucc n =>
    refine .inr ?_
    show ("-" ++ toString (n + 1)).toList = _
    rw [String.toList_append]
    rfl

theorem plainAllowed_cons_of_isPlainWord (h : isPlainWord word = true) :
    plainAllowed ('-' :: word) = true := by
  have hplain := plainAllowed_of_isPlainWord h
  obtain ⟨d, cs, rfl⟩ := exists_cons_of_isPlainWord h
  obtain ⟨hd, -, hchars⟩ := isPlainWord_iff.mp h
  have hdash : '-' ≠ d := (ne_of_isNameChar hd rfl).symm
  obtain ⟨hblank, hbreak, -⟩ := hchars d List.mem_cons_self
  simp only [plainAllowed, Bool.and_eq_true, Bool.not_eq_true'] at hplain ⊢
  obtain ⟨⟨⟨⟨⟨-, hmark⟩, hpair⟩, -⟩, hlast⟩, hany⟩ := hplain
  refine ⟨⟨⟨⟨⟨?_, ?_⟩, ?_⟩, rfl⟩, ?_⟩, ?_⟩
  · simp [startsWithIndicator, List.isPrefixOf, hdash, endsWord, hblank, hbreak]
  · simpa [hasValueMark] using hmark
  · simpa [hasPair, isBlank] using hpair
  · simpa using hlast
  · rw [List.any_cons, hany]
    rfl

theorem plainAllowed_toString (n : Int) : plainAllowed (toString n).toList = true := by
  rcases toList_toString_int n with h | h
  · rw [h]
    exact plainAllowed_of_isPlainWord (isPlainWord_toString _)
  · rw [h]
    exact plainAllowed_cons_of_isPlainWord (isPlainWord_toString _)

theorem lineFeed_not_mem_toString (n : Int) : '\n' ∉ (toString n).toList := by
  have hword := lineFeed_not_mem_of_isPlainWord (isPlainWord_toString n.natAbs)
  rcases toList_toString_int n with h | h
  · rwa [h]
  · rw [h]
    simpa using hword

theorem laid_int (n : Int) : Laid step column 0 (.int n) := by
  refine ⟨?_, yields_scalar (toString n) .plain⟩
  have hne : (toString n).toList ≠ [] := by
    intro hnil
    have hplain := isPlainWord_toString n.natAbs
    rcases toList_toString_int n with h | h
    · rw [← h, hnil] at hplain
      cases hplain
    · rw [hnil] at h
      cases h
  have hspoken : Spoken column 0 (' ' :: ((toString n).toList ++ ['\n']))
      [.scalar (String.ofList (toString n).toList) .plain] :=
    spoken_plain hne (plainAllowed_toString n)
  have htext : ((Value.int n).written step column false).toList =
      ' ' :: ((toString n).toList ++ ['\n']) := by
    simp [Value.written]
  rw [htext, Value.kinds]
  rwa [String.ofList_toList] at hspoken

/-! ### Decoding -/

theorem decodes_readInt {d : Document} {node : Node} {n : Nat} (h : n < 0x8000000000000000)
    (hshown : (Value.int n).shownBy node) : Decodes (readInt d node) (some (n : Int)) := by
  obtain ⟨line, hnode⟩ := hshown
  obtain rfl : node = .scalar line "!!int" (toString n) := by
    rw [hnode]
    exact congrArg (Node.scalar line · _) (impliedTag_nat (by omega))
  have hvalue : scalarValue "!!int" (toString n) = .ok (.int n) := by
    rw [scalarValue, if_neg (by decide), if_pos (by decide), implicitValue_nat (by omega)]
    rfl
  have hread : Decodes (pure (if (n : Int) < 0x8000000000000000 then some (n : Int) else none))
      (some (n : Int)) := by
    rw [if_pos (by omega)]
    exact Decodes.pure _
  exact decodes_ofScalar hvalue (by simp) hread

theorem decodes_readTime {d : Document} {node : Node} {t : Timestamp} (h : t.Valid)
    (hshown : (Value.time t).shownBy node) : Decodes (readTime d node) (some t) := by
  obtain ⟨line, hnode⟩ := hshown
  rw [impliedTag_time h] at hnode
  subst hnode
  have hvalue : scalarValue "!!timestamp" t.text = .ok (.time t) := by
    have hvalue : implicitValue (decide ("!!timestamp" = "!!timestamp")) t.text = .time t :=
      implicitValue_time h
    rw [scalarValue, if_neg (by decide), if_pos (by decide), hvalue]
    rfl
  have hscalar : (d.resolve (.scalar line "!!timestamp" t.text)).isMapping = false := rfl
  unfold readTime
  rw [if_neg (by rw [hscalar]; exact Bool.false_ne_true)]
  exact decodes_ofScalar hvalue (by simp) (Decodes.pure (some t))

end ClassAudit.Yaml
