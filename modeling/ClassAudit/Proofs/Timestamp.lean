import Mathlib.Data.List.Basic
import ClassAudit.Proofs.Text.Digits

/-! # Points in time read back

    The text of a point in time is read back as that point in time, if it is one that a clock can
    show and its year has four digits.
-/

namespace ClassAudit.Timestamp

variable {n width : Nat} {c : Char} {ds rest : List Char}

/-! ### Digits -/

/-- The number that has the digits of another one and then a further one. -/
def addDigit (n : Nat) (c : Char) : Nat :=
  10 * n + (c.toNat - '0'.toNat)

theorem isDigit_digitChar {d : Nat} (h : d < 10) : d.digitChar.isDigit = true := by
  have hall : ∀ d < 10, (Nat.digitChar d).isDigit = true := by decide
  exact hall d h

theorem addDigit_digitChar (n : Nat) {d : Nat} (h : d < 10) : addDigit n d.digitChar = 10 * n + d := by
  have hall : ∀ d < 10, (Nat.digitChar d).toNat - '0'.toNat = d := by decide
  rw [addDigit, hall d h]

theorem isDigit_of_mem_toDigits (h : c ∈ Nat.toDigits 10 n) : c.isDigit = true := by
  obtain ⟨d, hd, rfl⟩ := Text.exists_digit_of_mem_toDigits (by decide) h
  exact isDigit_digitChar hd

theorem foldl_toDigits (n : Nat) : (Nat.toDigits 10 n).foldl addDigit 0 = n := by
  rw [List.foldl_eq_foldlM]
  refine congrArg Id.run (Text.foldlM_toDigits (m := Id) (by decide) (fun k d hd => ?_) n)
  exact congrArg pure (addDigit_digitChar k hd)

theorem toList_padded (width n : Nat) :
    (padded width n).toList =
      List.replicate (width - (Nat.toDigits 10 n).length) '0' ++ Nat.toDigits 10 n := by
  rw [padded, String.toList_ofList]

theorem foldl_replicate_zero (k : Nat) : (List.replicate k '0').foldl addDigit 0 = 0 := by
  induction k with
  | zero => rfl
  | succ k ih => rw [List.replicate_succ, List.foldl_cons]; exact ih

theorem foldl_padded (width n : Nat) : (padded width n).toList.foldl addDigit 0 = n := by
  rw [toList_padded, List.foldl_append, foldl_replicate_zero, foldl_toDigits]

theorem isDigit_of_mem_padded (h : c ∈ (padded width n).toList) : c.isDigit = true := by
  rw [toList_padded, List.mem_append] at h
  rcases h with h | h
  · rw [List.eq_of_mem_replicate h]
    rfl
  · exact isDigit_of_mem_toDigits h

theorem length_padded (hwidth : 0 < width) (h : n < 10 ^ width) :
    (padded width n).toList.length = width := by
  have hle := (Nat.length_toDigits_le_iff (by omega) hwidth).mpr h
  rw [toList_padded, List.length_append, List.length_replicate]
  omega

/-! ### Readers -/

section Scan

variable {α β : Type} {cs rest : List Char}

theorem run_bind {m : Scan α} {a : α} (h : m.run cs = some (a, rest)) (f : α → Scan β) :
    (m >>= f).run cs = (f a).run rest := by
  rw [StateT.run_bind, h]
  rfl

theorem run_get (cs : List Char) : (get : Scan (List Char)).run cs = some (cs, cs) :=
  rfl

theorem run_set (cs rest : List Char) : (set rest : Scan Unit).run cs = some ((), rest) :=
  rfl

theorem run_one (c : Char) (rest : List Char) : (one c).run (c :: rest) = some ((), rest) := by
  show (one c) (c :: rest) = _
  simp [one]

theorem run_digit (h : c.isDigit = true) (rest : List Char) :
    digit.run (c :: rest) = some (c.toNat - '0'.toNat, rest) := by
  show digit (c :: rest) = _
  simp [digit, h]

theorem run_digits (h : ∀ c ∈ ds, c.isDigit = true) (value : Nat) (rest : List Char) :
    (digits ds.length value).run (ds ++ rest) = some (ds.foldl addDigit value, rest) := by
  induction ds generalizing value with
  | nil => rfl
  | cons c ds ih =>
    obtain ⟨hc, h⟩ := List.forall_mem_cons.mp h
    rw [List.length_cons, digits, List.cons_append, run_bind (run_digit hc _), ih h]
    rfl

theorem run_twoDigits (h : ∀ c ∈ ds, c.isDigit = true) (hlength : ds.length = 2) (short : Bool)
    (rest : List Char) : (twoDigits short).run (ds ++ rest) = some (ds.foldl addDigit 0, rest) := by
  obtain ⟨a, b, rfl⟩ := List.length_eq_two.mp hlength
  have ha := h a (by simp)
  have hb := h b (by simp)
  have hsecond : (twoDigits short).run (a :: b :: rest) =
      (do return 10 * (a.toNat - '0'.toNat) + (← digit) : Scan Nat).run (b :: rest) := by
    rw [twoDigits, run_bind (run_digit ha _), run_bind (run_get _)]
    show (if b.isDigit = true then _ else _ : Scan Nat).run _ = _
    rw [if_pos hb]
  rw [List.cons_append, List.singleton_append, hsecond, run_bind (run_digit hb _)]
  simp [addDigit]

theorem run_guard {p : Prop} [Decidable p] (h : p) (cs : List Char) :
    (guard p : Scan Unit).run cs = some ((), cs) := by
  rw [guard, if_pos h]
  rfl

theorem run_bounded {m : Scan Nat} {bound : Nat} (h : m.run cs = some (n, rest)) (hn : n < bound) :
    (bounded bound m).run cs = some (n, rest) := by
  rw [bounded, run_bind h, run_bind (run_guard hn rest)]
  rfl

theorem run_padded (h : n < 100) (short : Bool) (rest : List Char) :
    (twoDigits short).run ((padded 2 n).toList ++ rest) = some (n, rest) := by
  rw [run_twoDigits (fun _ => isDigit_of_mem_padded) (length_padded (by omega) h), foldl_padded]

theorem run_year (h : n < 10000) (rest : List Char) :
    (digits 4 0).run ((padded 4 n).toList ++ rest) = some (n, rest) := by
  have hrun := run_digits (fun c (hc : c ∈ (padded 4 n).toList) => isDigit_of_mem_padded hc) 0 rest
  rwa [length_padded (by omega) h, foldl_padded] at hrun

end Scan

/-- A point in time that a clock can show, in a year with four digits, and an offset that can be
    written. -/
structure Valid (t : Timestamp) : Prop where
  year : t.year < 10000
  month : 1 ≤ t.month ∧ t.month < 13
  day : 1 ≤ t.day ∧ t.day ≤ daysIn t.year t.month
  hour : t.hour < 24
  minute : t.minute < 60
  second : t.second < 60
  nanosecond : t.nanosecond < 1000000000
  offset : t.offset.natAbs < 1500

variable {t : Timestamp}

theorem daysIn_le (year month : Nat) : daysIn year month ≤ 31 := by
  unfold daysIn
  split_ifs <;> omega

theorem run_date (h : t.Valid) (short : Bool) (rest : List Char) :
    (date short).run ((padded 4 t.year).toList ++ '-' :: ((padded 2 t.month).toList ++
      '-' :: ((padded 2 t.day).toList ++ rest))) = some ((t.year, t.month, t.day), rest) := by
  have hmonth := h.month
  have hday := h.day
  have hdays := daysIn_le t.year t.month
  rw [date, run_bind (run_year h.year _), run_bind (run_one _ _),
    run_bind (run_bounded (run_padded (by omega) short _) hmonth.2), run_bind (run_one _ _),
    run_bind (run_padded (by omega) short _),
    run_bind (run_guard ⟨hmonth.1, hday.1, hday.2⟩ rest)]
  rfl

theorem run_zone_sign {sign : Char} (hsign : sign = '+' ∨ sign = '-') {hours minutes : Nat}
    (hhours : hours < 25) (hminutes : minutes < 61) :
    zone.run (sign :: ((padded 2 hours).toList ++ ':' :: (padded 2 minutes).toList)) =
      some (if sign = '-' then -((60 * hours + minutes : Nat) : Int)
        else ((60 * hours + minutes : Nat) : Int), []) := by
  have hlast : (bounded 61 (twoDigits false)).run (padded 2 minutes).toList = some (minutes, []) := by
    have hrun := run_padded (show minutes < 100 by omega) false []
    rw [List.append_nil] at hrun
    exact run_bounded hrun hminutes
  have hrest : zone.run (sign :: ((padded 2 hours).toList ++ ':' :: (padded 2 minutes).toList)) =
      (do
        let hours ← bounded 25 (twoDigits false)
        one ':'
        let minutes ← bounded 61 (twoDigits false)
        let offset : Int := (60 * hours + minutes : Nat)
        return if sign = '-' then -offset else offset : Scan Int).run
          ((padded 2 hours).toList ++ ':' :: (padded 2 minutes).toList) := by
    rw [zone, run_bind (run_get _)]
    rcases hsign with rfl | rfl
    · exact (run_bind (run_guard (.inl rfl) _) _).trans (run_bind (run_set _ _) _)
    · exact (run_bind (run_guard (.inr rfl) _) _).trans (run_bind (run_set _ _) _)
  rw [hrest, run_bind (run_bounded (run_padded (by omega) false _) hhours),
    run_bind (run_one _ _), run_bind hlast]
  rfl

theorem run_zone {offset : Int} (h : offset.natAbs < 1500) :
    zone.run (offsetText offset).toList = some (offset, []) := by
  unfold offsetText
  by_cases hzero : offset = 0
  · rw [if_pos hzero, hzero]
    rfl
  · have hdiv : 60 * (offset.natAbs / 60) + offset.natAbs % 60 = offset.natAbs := Nat.div_add_mod _ _
    have hhours : offset.natAbs / 60 < 25 := by omega
    have hminutes : offset.natAbs % 60 < 61 := by omega
    rw [if_neg hzero]
    by_cases hneg : offset < 0
    · have hrun := run_zone_sign (.inr rfl) hhours hminutes
      rw [hdiv, if_pos rfl] at hrun
      have habs : -(offset.natAbs : Int) = offset := by omega
      rw [habs] at hrun
      simpa [hneg] using hrun
    · have hrun := run_zone_sign (.inl rfl) hhours hminutes
      rw [hdiv, if_neg (by decide)] at hrun
      have habs : (offset.natAbs : Int) = offset := by omega
      rw [habs] at hrun
      simpa [hneg] using hrun

/-- Zeros at the end of a fraction are what is missing. -/
theorem exists_fraction (hzero : n ≠ 0) (h : n < 1000000000) :
    ∃ d ds, (fraction n).toList = '.' :: d :: ds ∧ (∀ c ∈ d :: ds, c.isDigit = true) ∧
      (d :: ds) ++ List.replicate (9 - (d :: ds).length) '0' = (padded 9 n).toList := by
  let kept := ((padded 9 n).toList.reverse.dropWhile (· == '0')).reverse
  have hsplit : kept ++ List.replicate (9 - kept.length) '0' = (padded 9 n).toList := by
    have hparts := List.takeWhile_append_dropWhile (p := (· == '0')) (l := (padded 9 n).toList.reverse)
    have hzeros : ∀ c ∈ (padded 9 n).toList.reverse.takeWhile (· == '0'), c = '0' := fun c hc => by
      simpa using List.all_eq_true.mp List.all_takeWhile c hc
    have hwhole : kept ++ ((padded 9 n).toList.reverse.takeWhile (· == '0')).reverse =
        (padded 9 n).toList := by
      rw [← List.reverse_append, hparts, List.reverse_reverse]
    have hlength := congrArg List.length hwhole
    rw [List.length_append, length_padded (by omega) h] at hlength
    rw [List.eq_replicate_of_mem (fun c hc => hzeros c (List.mem_reverse.mp hc))] at hwhole
    rw [show 9 - kept.length = ((padded 9 n).toList.reverse.takeWhile (· == '0')).reverse.length by
      omega]
    exact hwhole
  have hfraction : (fraction n).toList = '.' :: kept := by
    rw [fraction, if_neg hzero]
    simp [kept]
  cases hkept : kept with
  | nil =>
    -- Then all digits are zeros, and so is the number.
    rw [hkept] at hsplit
    have hvalue := foldl_padded 9 n
    rw [← hsplit, List.nil_append, foldl_replicate_zero] at hvalue
    exact absurd hvalue.symm hzero
  | cons d ds =>
    rw [hkept] at hsplit hfraction
    refine ⟨d, ds, hfraction, fun c hc => ?_, hsplit⟩
    have hmem : c ∈ (padded 9 n).toList := by
      rw [← hsplit]
      exact List.mem_append_left _ hc
    exact isDigit_of_mem_padded hmem

/-- No digit or point follows. -/
def endsSecond (rest : List Char) : Bool :=
  rest.head?.all fun c => !c.isDigit && c != '.' && c != ','

/-- Digits in front of what starts with no digit are the longest run of digits. -/
theorem takeWhile_isDigit (hds : ∀ c ∈ ds, c.isDigit = true)
    (hrest : rest.head?.any Char.isDigit = false) :
    (ds ++ rest).takeWhile Char.isDigit = ds ∧ (ds ++ rest).dropWhile Char.isDigit = rest := by
  rw [List.takeWhile_append_of_pos hds, List.dropWhile_append_of_pos hds]
  cases rest with
  | nil => simp
  | cons c rest =>
    have hc : c.isDigit = false := by simpa using hrest
    simp [hc]

theorem run_fractionPart (h : n < 1000000000) (hrest : endsSecond rest = true) :
    fractionPart.run ((fraction n).toList ++ rest) = some (n, rest) := by
  by_cases hzero : n = 0
  · rw [hzero]
    show fractionPart rest = _
    match rest with
    | [] => rfl
    | [c] => rfl
    | c :: d :: rest =>
      have hc : (c.isDigit = false ∧ c ≠ '.') ∧ c ≠ ',' := by simpa [endsSecond] using hrest
      have hpoint : ¬((c = '.' ∨ c = ',') ∧ d.isDigit = true) := fun hpoint => by
        rcases hpoint.1 with rfl | rfl
        · exact hc.1.2 rfl
        · exact hc.2 rfl
      show (fractionPart.run (c :: d :: rest)) = _
      rw [fractionPart, StateT.run_bind]
      simp [hpoint]
  · obtain ⟨d, ds, hfraction, hdigits, hpadded⟩ := exists_fraction hzero h
    have hhead : rest.head?.any Char.isDigit = false := by
      cases rest with
      | nil => rfl
      | cons c rest =>
        have hc : (c.isDigit = false ∧ c ≠ '.') ∧ c ≠ ',' := by simpa [endsSecond] using hrest
        simpa using hc.1.1
    obtain ⟨htake, hdrop⟩ := takeWhile_isDigit hdigits hhead
    -- The reader looks at nine digits, and there are no more of them.
    have hnine : (d :: ds).take 9 = d :: ds := by
      have hlength := congrArg List.length hpadded
      rw [List.length_append, List.length_replicate, length_padded (by omega) h] at hlength
      exact List.take_of_length_le (by omega)
    have hd := hdigits d List.mem_cons_self
    have hvalue := foldl_padded 9 n
    rw [← hpadded] at hvalue
    rw [hfraction, fractionPart, StateT.run_bind]
    rw [List.cons_append] at htake hdrop
    simp only [StateT.run_get, List.cons_append, Option.pure_def, Option.bind_eq_bind,
      Option.bind_some, true_or, hd, and_self, if_true, htake, hdrop, hnine]
    exact congrArg (fun value => some (value, rest)) hvalue

theorem run_clock (h : t.Valid) (short : Bool) (hrest : endsSecond rest = true) :
    (clock short).run ((padded 2 t.hour).toList ++ ':' :: ((padded 2 t.minute).toList ++
      ':' :: ((padded 2 t.second).toList ++ ((fraction t.nanosecond).toList ++ rest)))) =
        some ((t.hour, t.minute, t.second, t.nanosecond), rest) := by
  have hhour := h.hour
  have hminute := h.minute
  have hsecond := h.second
  rw [clock, run_bind (run_bounded (run_padded (by omega) true _) hhour), run_bind (run_one _ _),
    run_bind (run_bounded (run_padded (by omega) short _) hminute), run_bind (run_one _ _),
    run_bind (run_bounded (run_padded (by omega) short _) hsecond),
    run_bind (run_fractionPart h.nanosecond hrest)]
  rfl

theorem endsSecond_offsetText (offset : Int) : endsSecond (offsetText offset).toList = true := by
  unfold offsetText endsSecond
  split_ifs <;> simp

theorem toList_text (t : Timestamp) :
    t.text.toList = (padded 4 t.year).toList ++ '-' :: ((padded 2 t.month).toList ++
      '-' :: ((padded 2 t.day).toList ++ 'T' :: ((padded 2 t.hour).toList ++
      ':' :: ((padded 2 t.minute).toList ++ ':' :: ((padded 2 t.second).toList ++
      ((fraction t.nanosecond).toList ++ (offsetText t.offset).toList)))))) := by
  simp [text]

theorem run_full (h : t.Valid) (short : Bool) :
    (full short 'T').run t.text.toList = some (t, []) := by
  rw [full, toList_text, run_bind (run_date h short _), run_bind (run_one _ _),
    run_bind (run_clock h short (endsSecond_offsetText t.offset)), run_bind (run_zone h.offset)]
  rfl

theorem parseLiberal?_text (h : t.Valid) : parseLiberal? t.text = some t := by
  rw [parseLiberal?, whole, run_full h]
  rfl

/-! ### The characters of a text -/

/-- A character that points in time are written with. -/
def isTimeChar (c : Char) : Bool :=
  c.isDigit || ['-', 'T', ':', '.', 'Z', '+'].contains c

theorem isTimeChar_of_isDigit (h : c.isDigit = true) : isTimeChar c = true := by
  rw [isTimeChar, h, Bool.true_or]

theorem isTimeChar_of_mem_padded (h : c ∈ (padded width n).toList) : isTimeChar c = true :=
  isTimeChar_of_isDigit (isDigit_of_mem_padded h)

theorem isTimeChar_of_mem_fraction (h : c ∈ (fraction n).toList) : isTimeChar c = true := by
  unfold fraction at h
  split at h
  · nomatch h
  · simp only [String.toList_append, String.toList_ofList, List.mem_append, List.mem_reverse] at h
    rcases h with h | h
    · rw [List.mem_singleton.mp h]
      rfl
    · exact isTimeChar_of_mem_padded (List.mem_reverse.mp ((List.dropWhile_sublist _).subset h))

theorem isTimeChar_of_mem_offsetText {offset : Int} (h : c ∈ (offsetText offset).toList) :
    isTimeChar c = true := by
  have hcheck : (["Z", "-", "+", ":"].all fun sign => sign.toList.all isTimeChar) = true := by decide
  have hsign : ∀ sign ∈ ["Z", "-", "+", ":"], ∀ c ∈ sign.toList, isTimeChar c = true :=
    fun sign hmem => List.all_eq_true.mp (List.all_eq_true.mp hcheck sign hmem)
  unfold offsetText at h
  split_ifs at h
  · exact hsign "Z" (by simp) c h
  all_goals
    simp only [String.toList_append, List.mem_append] at h
    rcases h with ((h | h) | h) | h
    · exact hsign _ (by simp) c h
    · exact isTimeChar_of_mem_padded h
    · exact hsign _ (by simp) c h
    · exact isTimeChar_of_mem_padded h

theorem isTimeChar_of_mem_text (h : c ∈ t.text.toList) : isTimeChar c = true := by
  rw [toList_text] at h
  simp only [List.mem_append, List.mem_cons] at h
  rcases h with h | rfl | h | rfl | h | rfl | h | rfl | h | rfl | h | h | h
  · exact isTimeChar_of_mem_padded h
  · rfl
  · exact isTimeChar_of_mem_padded h
  · rfl
  · exact isTimeChar_of_mem_padded h
  · rfl
  · exact isTimeChar_of_mem_padded h
  · rfl
  · exact isTimeChar_of_mem_padded h
  · rfl
  · exact isTimeChar_of_mem_padded h
  · exact isTimeChar_of_mem_fraction h
  · exact isTimeChar_of_mem_offsetText h

theorem padded_ne_nil (width n : Nat) : (padded width n).toList ≠ [] := by
  rw [toList_padded, ne_eq, List.append_eq_nil_iff]
  intro h
  have hvalue := Nat.toDigits_ne_nil (b := 10) (n := n)
  exact hvalue h.2

theorem exists_digit_cons_text (t : Timestamp) :
    ∃ d cs, t.text.toList = d :: cs ∧ d.isDigit = true := by
  obtain ⟨d, ds, hds⟩ := List.exists_cons_of_ne_nil (padded_ne_nil 4 t.year)
  rw [toList_text, hds]
  exact ⟨d, _, rfl, isDigit_of_mem_padded (by rw [hds]; exact List.mem_cons_self)⟩

theorem exists_getLast?_offsetText (offset : Int) :
    ∃ c, (offsetText offset).toList.getLast? = some c ∧ c ≠ ':' := by
  have hpadded : ∀ n, ∃ c, (padded 2 n).toList.getLast? = some c ∧ c.isDigit = true := by
    intro n
    refine ⟨_, List.getLast?_eq_some_getLast (padded_ne_nil 2 n), ?_⟩
    exact isDigit_of_mem_padded (List.getLast_mem _)
  unfold offsetText
  split
  · exact ⟨'Z', rfl, by decide⟩
  · obtain ⟨c, hlast, hdigit⟩ := hpadded (offset.natAbs % 60)
    refine ⟨c, ?_, fun heq => ?_⟩
    · rw [String.toList_append, List.getLast?_append, hlast]
      rfl
    · rw [heq] at hdigit
      nomatch hdigit

theorem getLast?_text (t : Timestamp) : t.text.toList.getLast? ≠ some ':' := by
  obtain ⟨c, hlast, hc⟩ := exists_getLast?_offsetText t.offset
  rw [text, String.toList_append, List.getLast?_append, hlast]
  simpa using hc

/-! ### Texts without dashes -/

theorem suffix_of_run_digits {value k : Nat} {cs : List Char}
    (h : (digits n value).run cs = some (k, rest)) : rest <:+ cs := by
  induction n generalizing value cs with
  | zero =>
    obtain ⟨-, rfl⟩ := Prod.mk.inj (Option.some.inj h)
    exact List.suffix_refl cs
  | succ n ih =>
    rw [digits] at h
    cases cs with
    | nil => nomatch h
    | cons c cs =>
      by_cases hc : c.isDigit = true
      · rw [run_bind (run_digit hc cs)] at h
        exact (ih h).trans (List.suffix_cons c cs)
      · have hnone : digit.run (c :: cs) = none := by
          show digit (c :: cs) = none
          simp [digit, hc]
        rw [StateT.run_bind, hnone] at h
        nomatch h

theorem run_date_eq_none {cs : List Char} (h : '-' ∉ cs) (short : Bool) :
    (date short).run cs = none := by
  rw [date, StateT.run_bind]
  cases hyear : (digits 4 0).run cs with
  | none => rfl
  | some p =>
    obtain ⟨year, rest⟩ := p
    have hsuffix := suffix_of_run_digits hyear
    have hone : (one '-').run rest = none := by
      show one '-' rest = none
      cases rest with
      | nil => rfl
      | cons c rest =>
        have hc : '-' ≠ c := fun heq => h (hsuffix.subset (by rw [heq]; exact List.mem_cons_self))
        simp [one, hc]
    rw [Option.bind_eq_bind, Option.bind_some, StateT.run_bind, hone]
    rfl

/-- A point in time has dashes in it. -/
theorem parseLiberal?_eq_none {s : String} (h : '-' ∉ s.toList) : parseLiberal? s = none := by
  have hwhole : ∀ (short : Bool) (f : Nat × Nat × Nat → Scan Timestamp),
      whole (date short >>= f) s = none := by
    intro short f
    rw [whole, StateT.run_bind, run_date_eq_none h]
    rfl
  rw [parseLiberal?, full, full, spaced, dateOnly, hwhole, hwhole, hwhole, hwhole]
  rfl

end ClassAudit.Timestamp
