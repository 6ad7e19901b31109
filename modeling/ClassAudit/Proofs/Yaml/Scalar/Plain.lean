import ClassAudit.Proofs.Yaml.Place
import ClassAudit.Yaml.Print

/-! # Plain scalars read back

    A text that may be plain is read back from the line it stands on, whatever line follows, if
    that is indented by less than the scalar may be.
-/

namespace ClassAudit.Yaml

variable {p : Place} {word rest front back cs : List Char} {index line column n : Nat}
  {pair : Char → Char → Bool} {c : Char}

/-! ### Words -/

theorem readWord_eq {inFlow : Bool} (h : p.Shows ⟨word ++ rest, index, line, column⟩)
    (hword : ∀ c back, c :: back <:+ word → wordGoesOn inFlow (c :: (back ++ rest)) = true)
    (hrest : wordGoesOn inFlow rest = false) :
    ∃ p', readWord inFlow p = .ok (word, p') ∧
      p'.Shows ⟨rest, index + word.length, line, column + word.length⟩ := by
  have hgo : ∀ fuel done, word.length < fuel →
      ∃ p', readWord.go inFlow fuel done p = .ok (done.reverse ++ word, p') ∧
        p'.Shows ⟨rest, index + word.length, line, column + word.length⟩ := by
    intro fuel done hfuel
    induction word generalizing p index column fuel done with
    | nil =>
      obtain _ | fuel := fuel
      · omega
      have hp : p.rest = rest := h.rest
      refine ⟨p, ?_, h⟩
      cases rest with
      | nil => simp [readWord.go, hp]
      | cons c cs => simp [readWord.go, hp, hrest]
    | cons c word ih =>
      obtain _ | fuel := fuel
      · omega
      have hp : p.rest = c :: (word ++ rest) := h.rest
      have hgoes := hword c word (List.suffix_refl _)
      obtain ⟨p', hneed, hshows⟩ := h.next.need 2
      obtain ⟨p'', hgo, hafter⟩ := ih hshows
        (fun d back hback => hword d back (hback.trans (List.suffix_cons _ _))) fuel (c :: done)
        (by simpa using hfuel)
      refine ⟨p'', ?_, ?_⟩
      · rw [readWord.go, hp]
        simp only [hgoes, if_true, hneed, bind, Except.bind, hgo]
        simp
      · rwa [Nat.add_assoc, Nat.add_comm 1, Nat.add_assoc, Nat.add_comm 1] at hafter
  refine hgo (p.left + 1) [] ?_
  rw [h.left, List.length_append]
  omega

/-! ### Spacing -/

namespace Spacing

/-- Line breaks and then spaces. -/
def of (breaks : List Char) (n : Nat) : Spacing :=
  match breaks with
  | [] => ⟨List.replicate n ' ', .none, []⟩
  | b :: breaks => ⟨[], some [b], breaks⟩

theorem text_of_nil (n : Nat) : (of [] n).text = List.replicate n ' ' := rfl

theorem text_of_cons {b : Char} (h : b ≠ '\n') (breaks : List Char) (n : Nat) :
    (of (b :: breaks) n).text = b :: breaks := by
  unfold of text
  split
  · next heq => nomatch heq
  · next heq => exact absurd (List.cons.inj (Option.some.inj heq)).1 h
  · next heq => rw [← Option.some.inj heq, List.singleton_append]

theorem foldl_addBlank (breaks : List Char) (m n : Nat) :
    (List.replicate n ' ').foldl addBlank (of breaks m) = of breaks (m + n) := by
  induction n generalizing m with
  | zero => rfl
  | succ n ih =>
    have hone : (of breaks m).addBlank ' ' = of breaks (m + 1) := by
      cases breaks with
      | nil =>
        show (⟨List.replicate m ' ' ++ [' '], .none, []⟩ : Spacing) = _
        rw [← List.replicate_succ']
        rfl
      | cons b breaks => rfl
    rw [List.replicate_succ, List.foldl_cons, hone, ih]
    congr 1
    omega

end Spacing

theorem readSpacing_go_spaces {indentation : Option Int}
    (h : p.Shows ⟨List.replicate n ' ' ++ rest, index, line, column⟩)
    (hrest : rest.head?.any (fun c => isBlank c || isBreak c) = false) (s : Spacing) {fuel : Nat}
    (hfuel : n < fuel) :
    ∃ p', readSpacing.go indentation fuel s p =
        .ok ((List.replicate n ' ').foldl Spacing.addBlank s, p') ∧
      p'.Shows ⟨rest, index + n, line, column + n⟩ := by
  induction n generalizing p index column s fuel with
  | zero =>
    obtain _ | fuel := fuel
    · omega
    obtain ⟨p', hneed, hshows⟩ := h.need 1
    have hp : p'.rest = rest := hshows.rest
    refine ⟨p', ?_, hshows⟩
    rw [readSpacing.go, hneed]
    cases rest with
    | nil => simp [bind, Except.bind, hp, pure, Except.pure]
    | cons c cs =>
      have hc : isBlank c = false ∧ isBreak c = false := by simpa using hrest
      simp [bind, Except.bind, hp, hc.1, hc.2, pure, Except.pure]
  | succ n ih =>
    obtain _ | fuel := fuel
    · omega
    obtain ⟨p', hneed, hshows⟩ := h.need 1
    have hp : p'.rest = ' ' :: (List.replicate n ' ' ++ rest) := hshows.rest
    have hlt : n < fuel := by omega
    obtain ⟨p'', hgo, hafter⟩ := ih (Place.Shows.next hshows) (s.addBlank ' ') hlt
    refine ⟨p'', ?_, ?_⟩
    · have hblank : isBlank ' ' = true := rfl
      have htab : (' ' == '\t') = false := rfl
      rw [readSpacing.go, hneed]
      simp only [bind, Except.bind, hp, hblank, htab, if_true, Bool.false_and, Bool.false_eq_true,
        if_false, hgo]
      rfl
    · rwa [Nat.add_assoc, Nat.add_comm 1, Nat.add_assoc, Nat.add_comm 1] at hafter

/-- Line breaks are added to the spacing, with the spaces behind them. -/
theorem readSpacing_go_breaks (indentation : Option Int) {breaks : List Char}
    (h : p.Shows ⟨breaks ++ (List.replicate n ' ' ++ rest), index, line, column⟩)
    (hbreaks : ∀ b ∈ breaks, isPlainBreak b = true)
    (hrest : rest.head?.any (fun c => isBlank c || isBreak c) = false) (s : Spacing) {fuel : Nat}
    (hfuel : breaks.length + n < fuel) :
    ∃ p', readSpacing.go indentation fuel s p =
        .ok ((List.replicate n ' ').foldl Spacing.addBlank
          (breaks.foldl (fun s b => s.addBreak [b]) s), p') ∧
      p'.Shows ⟨rest, index + breaks.length + n, line + breaks.length,
        if breaks = [] then column + n else n⟩ := by
  induction breaks generalizing p index line column s fuel with
  | nil => exact readSpacing_go_spaces h hrest s (by simpa using hfuel)
  | cons b breaks ih =>
    obtain ⟨hb, hbreaks⟩ := List.forall_mem_cons.mp hbreaks
    obtain _ | fuel := fuel
    · omega
    obtain ⟨p', hneed, hshows⟩ := h.need 1
    have hp : p'.rest = b :: (breaks ++ (List.replicate n ' ' ++ rest)) := hshows.rest
    have hblank : isBlank b = false := by
      rcases isPlainBreak_iff.mp hb with rfl | rfl | rfl <;> rfl
    obtain ⟨q, hbreak, hq⟩ := Place.Shows.lineBreak hshows hb
    have hlt : breaks.length + n < fuel := by
      rw [List.length_cons] at hfuel
      omega
    obtain ⟨p'', hgo, hafter⟩ := ih hq hbreaks (s.addBreak [b]) hlt
    refine ⟨p'', ?_, ?_⟩
    · rw [readSpacing.go, hneed]
      simp only [bind, Except.bind, hp, hblank, isBreak_of_isPlainBreak hb, if_true,
        Bool.false_eq_true, if_false, hbreak, hgo]
      rfl
    · have hindex : index + 1 + breaks.length + n = index + (b :: breaks).length + n := by
        rw [List.length_cons]
        omega
      have hline : line + 1 + breaks.length = line + (b :: breaks).length := by
        rw [List.length_cons]
        omega
      rw [hindex, hline, Nat.zero_add, ite_self] at hafter
      exact hafter

theorem foldl_addBreak_none (b : Char) (breaks : List Char) :
    (b :: breaks).foldl (fun s b => s.addBreak [b]) Spacing.none = .of (b :: breaks) 0 := by
  have hmore : ∀ more, breaks.foldl (fun (s : Spacing) b => s.addBreak [b]) ⟨[], some [b], more⟩ =
      ⟨[], some [b], more ++ breaks⟩ := by
    induction breaks with
    | nil => simp
    | cons d breaks ih =>
      intro more
      rw [List.foldl_cons]
      show breaks.foldl (fun (s : Spacing) b => s.addBreak [b]) ⟨[], some [b], more ++ [d]⟩ = _
      rw [ih, List.append_assoc, List.singleton_append]
  exact hmore []

theorem readSpacing_eq (indentation : Option Int) (breaks : List Char)
    (h : p.Shows ⟨breaks ++ (List.replicate n ' ' ++ rest), index, line, column⟩)
    (hbreaks : ∀ b ∈ breaks, isPlainBreak b = true)
    (hrest : rest.head?.any (fun c => isBlank c || isBreak c) = false) :
    ∃ p', readSpacing indentation .none p = .ok (.of breaks n, p') ∧
      p'.Shows ⟨rest, index + breaks.length + n, line + breaks.length,
        if breaks = [] then column + n else n⟩ := by
  have hfuel : breaks.length + n < p.left + 1 := by
    rw [h.left, List.length_append, List.length_append, List.length_replicate]
    omega
  obtain ⟨p', hgo, hafter⟩ :=
    readSpacing_go_breaks indentation h hbreaks hrest .none hfuel
  refine ⟨p', ?_, hafter⟩
  have hfold : breaks.foldl (fun (s : Spacing) b => s.addBreak [b]) .none = .of breaks 0 := by
    cases breaks with
    | nil => rfl
    | cons b breaks => exact foldl_addBreak_none b breaks
  rw [readSpacing, hgo, hfold, Spacing.foldl_addBlank, Nat.zero_add]

/-- Spacing starts with white space. -/
theorem exists_cons_of_gap {breaks : List Char} (hbreaks : ∀ b ∈ breaks, isPlainBreak b = true)
    (hgap : breaks = [] → n ≠ 0) (next : List Char) :
    ∃ c cs, breaks ++ (List.replicate n ' ' ++ next) = c :: cs ∧
      (isBlank c || isBreak c) = true := by
  cases breaks with
  | nil =>
    obtain ⟨k, rfl⟩ := Nat.exists_eq_succ_of_ne_zero (hgap rfl)
    exact ⟨' ', _, rfl, rfl⟩
  | cons b breaks =>
    have hb := isBreak_of_isPlainBreak (hbreaks b List.mem_cons_self)
    exact ⟨b, _, rfl, by rw [hb, Bool.or_true]⟩

/-! ### Words with gaps between -/

/-- A text starts with a word, and a gap follows unless that is all. -/
theorem exists_word (isGap : Char → Bool) (cs : List Char) :
    ∃ word gap rest, cs = word ++ (gap ++ rest) ∧ (∀ c ∈ word, isGap c = false) ∧
      (∀ c ∈ gap, isGap c = true) ∧ rest.head?.any isGap = false ∧ (gap = [] → rest = []) := by
  refine ⟨cs.takeWhile (!isGap ·), (cs.dropWhile (!isGap ·)).takeWhile isGap,
    (cs.dropWhile (!isGap ·)).dropWhile isGap, ?_, ?_, ?_, ?_, ?_⟩
  · rw [List.takeWhile_append_dropWhile, List.takeWhile_append_dropWhile]
  · intro c hc
    simpa using List.all_eq_true.mp List.all_takeWhile c hc
  · intro c hc
    exact List.all_eq_true.mp List.all_takeWhile c hc
  · have hhead := List.head?_dropWhile_not isGap (cs.dropWhile (!isGap ·))
    cases hd : ((cs.dropWhile (!isGap ·)).dropWhile isGap).head? with
    | none => rfl
    | some c => simpa [hd] using hhead
  · intro hgap
    have hhead := List.head?_dropWhile_not (!isGap ·) cs
    cases hd : cs.dropWhile (!isGap ·) with
    | nil => rfl
    | cons c rest =>
      have hc : isGap c = true := by simpa [hd] using hhead
      rw [hd, List.takeWhile_cons_of_pos hc] at hgap
      nomatch hgap

theorem hasValueMark_of_append (h : hasValueMark (front ++ back) = false) :
    hasValueMark back = false := by
  induction front with
  | nil => exact h
  | cons c front ih =>
    rw [List.cons_append, hasValueMark, Bool.or_eq_false_iff] at h
    exact ih h.2

theorem hasPair_of_append (h : hasPair pair (front ++ back) = false) :
    hasPair pair back = false := by
  induction front with
  | nil => exact h
  | cons c front ih =>
    apply ih
    rw [List.cons_append] at h
    cases hcs : front ++ back with
    | nil => rfl
    | cons d cs =>
      rw [hcs, hasPair, Bool.or_eq_false_iff] at h
      exact h.2

theorem hasPair_of_append_left (h : hasPair pair (front ++ back) = false) :
    hasPair pair front = false := by
  induction front with
  | nil => rfl
  | cons c front ih =>
    cases front with
    | nil => rfl
    | cons d front =>
      rw [List.cons_append, List.cons_append, hasPair, Bool.or_eq_false_iff] at h
      rw [hasPair, h.1, ih h.2]
      rfl

theorem not_pair_of_hasPair {a b : Char} (h : hasPair pair (front ++ a :: b :: back) = false) :
    pair a b = false := by
  have hback := hasPair_of_append h
  rw [hasPair, Bool.or_eq_false_iff] at hback
  exact hback.1

/-! ### Plain scalars -/

/-- What a plain scalar may go on with, from the start of a word on. -/
structure PlainFrom (cs : List Char) : Prop where
  ne_nil : cs ≠ []
  noBlank : cs.head? ≠ some ' '
  noSign : cs.head? ≠ some '#'
  noEndBlank : cs.getLast? ≠ some ' '
  chars : ∀ c ∈ cs, isBreak c = false ∧ c ≠ '\t'
  noValue : hasValueMark cs = false
  noComment : hasPair (fun a b => isBlank a && b == '#') cs = false

/-- A plain scalar is a word, or a word, spaces and what it goes on with. -/
theorem PlainFrom.exists_word (h : PlainFrom cs) :
    ∃ word n rest, cs = word ++ (List.replicate n ' ' ++ rest) ∧ word ≠ [] ∧
      (∀ c ∈ word, isBlank c = false) ∧ ((n = 0 ∧ rest = []) ∨ (n ≠ 0 ∧ PlainFrom rest)) := by
  obtain ⟨word, gap, rest, hcs, hword, hgap, hrest, hall⟩ := Yaml.exists_word (· == ' ') cs
  have hgap' : gap = List.replicate gap.length ' ' := by
    refine List.eq_replicate_of_mem fun c hc => ?_
    simpa using hgap c hc
  have hblank : ∀ c ∈ word, isBlank c = false := by
    intro c hc
    have hspace : c ≠ ' ' := by simpa using hword c hc
    have htab := (h.chars c (by rw [hcs]; exact List.mem_append_left _ hc)).2
    simp [isBlank, hspace, htab]
  have hne : word ≠ [] := by
    intro hnil
    -- Then the text is empty or starts with a space.
    cases gap with
    | nil => exact h.ne_nil (by rw [hcs, hnil, hall rfl]; rfl)
    | cons c gap =>
      have hc : c = ' ' := by simpa using hgap c List.mem_cons_self
      exact h.noBlank (by rw [hcs, hnil, hc]; rfl)
  refine ⟨word, gap.length, rest, by rw [← hgap', hcs], hne, hblank, ?_⟩
  by_cases hzero : gap = []
  · exact .inl ⟨by rw [hzero]; rfl, hall hzero⟩
  · right
    have hlast : gap.getLast? = some ' ' := by
      rw [hgap', List.getLast?_replicate, if_neg (by simpa using hzero)]
    have hrest' : rest ≠ [] := by
      intro hnil
      apply h.noEndBlank
      rw [hcs, hnil, List.append_nil, List.getLast?_append, hlast]
      rfl
    obtain ⟨c, cs', rfl⟩ := List.exists_cons_of_ne_nil hrest'
    refine ⟨by simpa using hzero, hrest', ?_, ?_, ?_, ?_, ?_, ?_⟩
    · intro hhead
      have hc : c ≠ ' ' := by simpa using hrest
      exact hc (Option.some.inj hhead)
    · intro hhead
      -- A sign of a comment would follow a space.
      obtain ⟨gap', hgap''⟩ : ∃ gap', gap = gap' ++ [' '] := by
        obtain ⟨l, hl⟩ := List.getLast?_eq_some_iff.mp hlast
        exact ⟨l, hl⟩
      have hc : c = '#' := by simpa using hhead
      have hpair := h.noComment
      rw [hcs, hgap'', hc, List.append_assoc, ← List.append_assoc] at hpair
      exact absurd (not_pair_of_hasPair hpair) (by decide)
    · intro hend
      apply h.noEndBlank
      rw [hcs, List.getLast?_append, List.getLast?_append, hend]
      rfl
    · intro d hd
      exact h.chars d (by rw [hcs]; exact List.mem_append_right _ (List.mem_append_right _ hd))
    · have := h.noValue
      rw [hcs] at this
      exact hasValueMark_of_append (hasValueMark_of_append this)
    · have := h.noComment
      rw [hcs] at this
      exact hasPair_of_append (hasPair_of_append this)

/-- A word of a plain scalar ends only at a blank, or with the scalar. -/
theorem wordGoesOn_of_plain (hchars : ∀ d ∈ word, isBlank d = false ∧ isBreak d = false)
    (hvalue : hasValueMark (word ++ rest) = false) (hback : c :: back <:+ word) (tail : List Char) :
    wordGoesOn false (c :: (back ++ (rest ++ tail))) = true := by
  obtain ⟨front, hfront⟩ := hback
  have hc := hchars c (by rw [← hfront]; simp)
  have hmark : hasValueMark (c :: (back ++ rest)) = false := by
    rw [← hfront, List.append_assoc] at hvalue
    exact hasValueMark_of_append hvalue
  rw [hasValueMark, Bool.or_eq_false_iff] at hmark
  by_cases hcolon : c = ':'
  · -- The text goes on behind the colon.
    have hends : endsWord (back ++ rest) = false := by simpa [hcolon] using hmark.1
    obtain ⟨d, more, hmore⟩ : ∃ d more, back ++ rest = d :: more := by
      cases hcs : back ++ rest with
      | nil => rw [hcs] at hends; nomatch hends
      | cons d more => exact ⟨d, more, rfl⟩
    have hends' : endsWord (back ++ (rest ++ tail)) = false := by
      rw [← List.append_assoc, hmore]
      rw [hmore] at hends
      exact hends
    simp [wordGoesOn, hc.1, hc.2, hends']
  · simp [wordGoesOn, hc.1, hc.2, hcolon]

/-- A round of reading: a word and the spacing behind it. Where that leads to tells whether there is
    another round. -/
theorem readPlain_go_word {indentation : Int} {next : List Char} (breaks : List Char)
    (h : p.Shows ⟨word ++ (breaks ++ (List.replicate n ' ' ++ next)), index, line, column⟩)
    (hcolumn : column ≠ 0) (hne : word ≠ []) (hsign : word.head? ≠ some '#')
    (hword : ∀ c back, c :: back <:+ word →
      wordGoesOn false (c :: (back ++ (breaks ++ (List.replicate n ' ' ++ next)))) = true)
    (hbreaks : ∀ b ∈ breaks, isPlainBreak b = true) (hgap : breaks = [] → n ≠ 0)
    (hnext : next.head?.any (fun c => isBlank c || isBreak c) = false)
    (fuel : Nat) (done : List (List Char)) (s : Spacing) :
    ∃ p' index', readPlain.go false indentation (fuel + 1) done s p =
        (if (p'.column : Int) < indentation then
          readPlain.finish (word :: s.text :: done) (.of breaks n) p'
        else readPlain.go false indentation fuel (word :: s.text :: done) (.of breaks n) p') ∧
      p'.Shows ⟨next, index', line + breaks.length,
        if breaks = [] then column + word.length + n else n⟩ := by
  obtain ⟨p₁, hneed, hshows₁⟩ := h.need 4
  have hmark : p₁.atDocumentMark = false := by
    have : p₁.column = column := hshows₁.column
    simp [Place.atDocumentMark, this, hcolumn]
  obtain ⟨c, cs, hcs, hspace⟩ := exists_cons_of_gap hbreaks hgap next
  have hend : wordGoesOn false (breaks ++ (List.replicate n ' ' ++ next)) = false := by
    simp [hcs, wordGoesOn, hspace]
  obtain ⟨p₂, hread, hshows₂⟩ := readWord_eq hshows₁ hword hend
  have hends : (p₂.rest.isEmpty || !endsWord p₂.rest) = false := by
    rw [hshows₂.rest, hcs, endsWord, hspace]
    rfl
  obtain ⟨p₃, hspacing, hshows₃⟩ := readSpacing_eq (some indentation) breaks hshows₂ hbreaks hnext
  refine ⟨p₃, _, ?_, hshows₃⟩
  obtain ⟨d, word, rfl⟩ := List.exists_cons_of_ne_nil hne
  have hhead : (p₁.rest.head? == some '#') = false := by
    rw [hshows₁.rest]
    simpa using hsign
  rw [readPlain.go, hneed]
  simp only [bind, Except.bind, hmark, hhead, Bool.or_false, Bool.false_eq_true, if_false, hread,
    hends, hspacing, Bool.not_false, Bool.true_and, decide_eq_true_eq]

section Read

variable {indentation : Int}
  (h : p.Shows ⟨cs ++ '\n' :: (List.replicate n ' ' ++ rest), index, line, column⟩)
  (hplain : PlainFrom cs) (hcolumn : column ≠ 0) (hindent : indentation ≤ column)
  (hbelow : (n : Int) < indentation)
  (hrest : rest.head?.any (fun c => isBlank c || isBreak c) = false)
include h hplain hcolumn hindent hbelow hrest

theorem readPlain_go {fuel : Nat} (hfuel : cs.length < fuel) (done : List (List Char))
    (s : Spacing) :
    ∃ p' index', readPlain.go false indentation fuel done s p =
        .ok ((String.ofList (done.reverse.flatten ++ s.text ++ cs), true), p') ∧
      p'.Shows ⟨rest, index', line + 1, n⟩ := by
  induction fuel generalizing p cs index column done s with
  | zero => omega
  | succ fuel ih =>
    obtain ⟨word, m, more, rfl, hne, hblank, hmore⟩ := hplain.exists_word
    have hsign : word.head? ≠ some '#' := by
      obtain ⟨c, word, rfl⟩ := List.exists_cons_of_ne_nil hne
      exact hplain.noSign
    have hchars : ∀ d ∈ word, isBlank d = false ∧ isBreak d = false := fun d hd =>
      ⟨hblank d hd, (hplain.chars d (List.mem_append_left _ hd)).1⟩
    rw [List.append_assoc] at h
    rcases hmore with ⟨rfl, rfl⟩ | ⟨hzero, hplain'⟩
    · -- The scalar ends with the word, and its line with the scalar.
      obtain ⟨p', index', hround, hshows⟩ := readPlain_go_word ['\n'] h hcolumn hne hsign
        (fun c back hback => wordGoesOn_of_plain hchars hplain.noValue hback _)
        (by simp [isPlainBreak]) (by simp) hrest fuel done s
      have hcolumn' : (p'.column : Int) < indentation := by
        rw [hshows.column]
        exact hbelow
      refine ⟨p', index', ?_, hshows⟩
      rw [hround, if_pos hcolumn']
      simp [readPlain.finish, Spacing.of]
    · have hfirst : (more ++ '\n' :: (List.replicate n ' ' ++ rest)).head?.any
          (fun c => isBlank c || isBreak c) = false := by
        obtain ⟨d, more, rfl⟩ := List.exists_cons_of_ne_nil hplain'.ne_nil
        have hd := hplain'.chars d List.mem_cons_self
        have hspace : d ≠ ' ' := fun heq => hplain'.noBlank (by rw [heq]; rfl)
        simp [isBlank, hspace, hd.1, hd.2]
      rw [List.append_assoc] at h
      obtain ⟨p₁, index₁, hround, hshows⟩ := readPlain_go_word [] h hcolumn hne hsign
        (fun c back hback => by
          simpa using wordGoesOn_of_plain hchars hplain.noValue hback ('\n' :: _))
        (List.forall_mem_nil _) (fun _ => hzero) hfirst fuel done s
      rw [if_pos rfl] at hshows
      have hcolumn' : ¬ (p₁.column : Int) < indentation := by
        rw [hshows.column]
        simp only
        omega
      have hfuel' : more.length < fuel := by
        have hpos := List.length_pos_iff.mpr hne
        rw [List.length_append, List.length_append] at hfuel
        omega
      obtain ⟨p', index', hgo, hafter⟩ := ih hshows hplain' (by omega) (by omega) hfuel'
        (word :: s.text :: done) (.of [] m)
      refine ⟨p', index', ?_, hafter⟩
      rw [hround, if_neg hcolumn', hgo]
      simp [Spacing.text_of_nil]

/-- A plain scalar is read back from its line, and the line break and the spaces behind it are
    read as well. -/
theorem readPlain_eq :
    ∃ p' index', readPlain false indentation p = .ok ((String.ofList cs, true), p') ∧
      p'.Shows ⟨rest, index', line + 1, n⟩ := by
  have hfuel : cs.length < p.left + 1 := by
    rw [h.left, List.length_append]
    omega
  exact readPlain_go h hplain hcolumn hindent hbelow hrest hfuel [] .none

end Read

/-- A text that may be plain is one that a plain scalar may go on with. -/
theorem PlainFrom.of_plainAllowed (hne : cs ≠ []) (h : plainAllowed cs = true) : PlainFrom cs := by
  simp only [plainAllowed, Bool.and_eq_true, Bool.not_eq_true', bne_iff_ne, ne_eq] at h
  obtain ⟨⟨⟨⟨⟨hindicator, hvalue⟩, hcomment⟩, hfirst⟩, hlast⟩, hchars⟩ := h
  refine ⟨hne, hfirst, ?_, hlast, ?_, hvalue, hcomment⟩
  · intro hhead
    obtain ⟨c, cs, rfl⟩ := List.exists_cons_of_ne_nil hne
    obtain rfl : c = '#' := Option.some.inj hhead
    simp [startsWithIndicator] at hindicator
  · intro c hc
    have hbad := List.any_eq_false.mp hchars c hc
    simp only [Bool.or_eq_true, not_or, Bool.not_eq_true, beq_eq_false_iff_ne] at hbad
    exact ⟨hbad.1.1, hbad.1.2⟩

/-! ### Words alone -/

/-- A letter, a digit or an underscore. None of them means anything in front of a scalar or
    inside. -/
def isNameChar (c : Char) : Bool :=
  c.isAlphanum || c == '_'

theorem ne_of_isNameChar {d : Char} (h : isNameChar c = true) (hd : isNameChar d = false) :
    c ≠ d := by
  rintro rfl
  rw [h] at hd
  nomatch hd

theorem isBlank_of_isNameChar (h : isNameChar c = true) : isBlank c = false := by
  simp [isBlank, ne_of_isNameChar h, isNameChar]

theorem isBreak_of_isNameChar (h : isNameChar c = true) : isBreak c = false := by
  simp [isBreak, ne_of_isNameChar h, isNameChar]

/-- A word is read up to what ends it, if that is no white space. -/
theorem readPlain_word (indentation : Int) {after : List Char}
    (h : p.Shows ⟨c :: word ++ after, index, line, column⟩) (hc : isNameChar c = true)
    (hword : ∀ d back, d :: back <:+ c :: word → wordGoesOn false (d :: (back ++ after)) = true)
    (hend : wordGoesOn false after = false) (hafter : (after.isEmpty || !endsWord after) = true) :
    ∃ p', readPlain false indentation p = .ok ((String.ofList (c :: word), false), p') ∧
      p'.Shows ⟨after, index + (c :: word).length, line, column + (c :: word).length⟩ := by
  obtain ⟨p₁, hneed, hshows₁⟩ := h.need 4
  obtain ⟨p₂, hread, hshows₂⟩ := readWord_eq hshows₁ hword hend
  refine ⟨p₂, ?_, hshows₂⟩
  have hp₁ : p₁.rest = c :: (word ++ after) := hshows₁.rest
  have hp₂ : p₂.rest = after := hshows₂.rest
  have hmark : p₁.atDocumentMark = false := by
    rw [Place.atDocumentMark, hp₁]
    simp [startsWord, List.isPrefixOf, (ne_of_isNameChar hc (d := '-') rfl).symm,
      (ne_of_isNameChar hc (d := '.') rfl).symm]
  have hsign : (p₁.rest.head? == some '#') = false := by
    rw [hp₁]
    simpa using ne_of_isNameChar hc (d := '#') rfl
  rw [readPlain, readPlain.go, hneed]
  simp only [bind, Except.bind, hmark, hsign, Bool.or_false, Bool.false_eq_true, if_false, hread,
    hp₂, hafter, if_true]
  simp [readPlain.finish, Spacing.none, Spacing.text]

theorem readPlain_key (indentation : Int) {name after : List Char}
    (h : p.Shows ⟨name ++ ':' :: after, index, line, column⟩) (hne : name ≠ [])
    (hname : ∀ c ∈ name, isNameChar c = true) (hafter : endsWord after = true) :
    ∃ p', readPlain false indentation p = .ok ((String.ofList name, false), p') ∧
      p'.Shows ⟨':' :: after, index + name.length, line, column + name.length⟩ := by
  obtain ⟨c, name, rfl⟩ := List.exists_cons_of_ne_nil hne
  refine readPlain_word indentation h (hname c List.mem_cons_self) ?_ ?_ rfl
  · intro d back hback
    have hd := hname d (hback.subset List.mem_cons_self)
    have hcolon : d ≠ ':' := ne_of_isNameChar hd rfl
    simp [wordGoesOn, isBlank_of_isNameChar hd, isBreak_of_isNameChar hd, hcolon]
  · simp [wordGoesOn, hafter]

/-- A word that does not end with a colon has no mark of a value in it. -/
theorem hasValueMark_of_word (hchars : ∀ c ∈ cs, isBlank c = false ∧ isBreak c = false)
    (hlast : cs.getLast? ≠ some ':') : hasValueMark cs = false := by
  induction cs with
  | nil => rfl
  | cons c cs ih =>
    rw [hasValueMark, Bool.or_eq_false_iff]
    cases cs with
    | nil =>
      have hc : c ≠ ':' := fun heq => hlast (by rw [heq]; rfl)
      exact ⟨by simp [hc], rfl⟩
    | cons d cs =>
      obtain ⟨-, hchars⟩ := List.forall_mem_cons.mp hchars
      obtain ⟨hblank, hbreak⟩ := hchars d List.mem_cons_self
      refine ⟨by simp [endsWord, hblank, hbreak], ih hchars ?_⟩
      rwa [List.getLast?_cons_cons] at hlast

theorem readPlain_last (indentation : Int) (h : p.Shows ⟨c :: word, index, line, column⟩)
    (hc : isNameChar c = true) (hchars : ∀ d ∈ c :: word, isBlank d = false ∧ isBreak d = false)
    (hlast : (c :: word).getLast? ≠ some ':') :
    ∃ p', readPlain false indentation p = .ok ((String.ofList (c :: word), false), p') ∧
      p'.Shows ⟨[], index + (c :: word).length, line, column + (c :: word).length⟩ := by
  have hvalue := hasValueMark_of_word hchars hlast
  rw [← List.append_nil (c :: word)] at h hvalue
  refine readPlain_word indentation h hc (fun d back hback => ?_) rfl rfl
  simpa using wordGoesOn_of_plain hchars hvalue hback []

end ClassAudit.Yaml
