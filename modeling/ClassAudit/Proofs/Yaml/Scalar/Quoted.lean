import ClassAudit.Proofs.Text.Decoding
import ClassAudit.Proofs.Text.Digits
import ClassAudit.Proofs.Yaml.Scalar.Plain

/-! # Quoted scalars read back

    Inside quotes stand words, whose characters are written in some code, with spacing between.
    Both kinds of quotes are of this form, so that one argument shows that the text inside is read
    back.
-/

namespace ClassAudit.Yaml

variable {double : Bool} {p : Place} {rest cs : List Char} {code : Char → List Char}
  {index line column indent : Nat} {c d : Char}

/-! ### Codes of characters -/

/-- A reader of words inside quotes takes some characters for one. -/
structure Codes (double : Bool) (c : Char) (code : List Char) : Prop where
  head : ∃ d rest, code = d :: rest ∧ isBlank d = false ∧ isBreak d = false
  step : ∀ {p : Place} {rest : List Char} {index line column : Nat},
    p.Shows ⟨code ++ rest, index, line, column⟩ → ∀ (fuel : Nat) (done : List Char),
      ∃ p', readQuotedWord.go double (fuel + 1) done p = readQuotedWord.go double fuel (c :: done) p' ∧
        p'.Shows ⟨rest, index + code.length, line, column + code.length⟩

/-- Where a word inside quotes ends: at white space, or at the closing quote. -/
def endsQuotedWord (double : Bool) : List Char → Bool
  | [] => false
  | c :: cs => isBlank c || isBreak c ||
      if double then c == '"' else c == '\'' && cs.head? != some '\''

theorem readQuotedWord_go_end (hp : p.rest = rest) (h : endsQuotedWord double rest = true)
    (fuel : Nat) (done : List Char) :
    readQuotedWord.go double (fuel + 1) done p = .ok ((done, .none), p) := by
  cases rest with
  | nil => nomatch h
  | cons c cs =>
    rw [readQuotedWord.go, hp]
    by_cases hspace : (isBlank c || isBreak c) = true
    · simp only [hspace, if_true]
    · rw [Bool.not_eq_true] at hspace
      simp only [hspace, Bool.false_eq_true, if_false]
      cases double with
      | true =>
        have hc : c = '"' := by simpa [endsQuotedWord, hspace] using h
        simp [hc]
      | false =>
        have hc : c = '\'' ∧ cs.head? ≠ some '\'' := by simpa [endsQuotedWord, hspace] using h
        simp [hc.1, hc.2]

/-- A word is read up to its end. -/
theorem readQuotedWord_eq {word : List Char} (hword : ∀ c ∈ word, Codes double c (code c))
    (h : p.Shows ⟨word.flatMap code ++ rest, index, line, column⟩)
    (hrest : endsQuotedWord double rest = true) :
    ∃ p', readQuotedWord double p = .ok ((word.reverse, .none), p') ∧
      p'.Shows ⟨rest, index + (word.flatMap code).length, line,
        column + (word.flatMap code).length⟩ := by
  have hgo : ∀ fuel done, word.length < fuel →
      ∃ p', readQuotedWord.go double fuel done p = .ok ((word.reverse ++ done, .none), p') ∧
        p'.Shows ⟨rest, index + (word.flatMap code).length, line,
          column + (word.flatMap code).length⟩ := by
    intro fuel done hfuel
    induction word generalizing p index column fuel done with
    | nil =>
      obtain _ | fuel := fuel
      · omega
      exact ⟨p, readQuotedWord_go_end h.rest hrest fuel done, h⟩
    | cons c word ih =>
      obtain _ | fuel := fuel
      · omega
      obtain ⟨hc, hword⟩ := List.forall_mem_cons.mp hword
      rw [List.flatMap_cons, List.append_assoc] at h
      obtain ⟨p', hstep, hshows⟩ := hc.step h fuel done
      obtain ⟨p'', hgo, hafter⟩ := ih hword hshows fuel (c :: done) (by simpa using hfuel)
      refine ⟨p'', ?_, ?_⟩
      · rw [hstep, hgo]
        simp
      · rw [List.flatMap_cons, List.length_append, ← Nat.add_assoc, ← Nat.add_assoc]
        exact hafter
  have hlength : word.length ≤ (word.flatMap code).length := by
    clear h hgo
    induction word with
    | nil => exact Nat.le_refl 0
    | cons c word ih =>
      obtain ⟨hc, hword⟩ := List.forall_mem_cons.mp hword
      obtain ⟨d, rest, hcode, -⟩ := hc.head
      have := ih hword
      rw [List.flatMap_cons, List.length_append, hcode, List.length_cons, List.length_cons]
      omega
  obtain ⟨p', hgo, hshows⟩ := hgo (p.left + 1) [] (by
    rw [h.left, List.length_append]
    omega)
  refine ⟨p', ?_, hshows⟩
  rw [readQuotedWord, hgo, List.append_nil]

/-! ### Texts inside quotes -/

/-- A text and how it is written inside quotes: words in a code, with spaces between, or with line
    breaks and the indentation of the next line. -/
inductive Inside (double : Bool) (code : Char → List Char) : List Char → List Char → Prop
  | word {word : List Char} (hword : ∀ c ∈ word, Codes double c (code c)) :
      Inside double code word (word.flatMap code)
  | gap {word breaks : List Char} {n : Nat} {text written : List Char}
      (hword : ∀ c ∈ word, Codes double c (code c))
      (hbreaks : ∀ b ∈ breaks, isPlainBreak b = true ∧ b ≠ '\n') (hgap : breaks = [] → n ≠ 0)
      (hnext : written.head?.any (fun c => isBlank c || isBreak c) = false)
      (hindent : n = 0 → written = []) (h : Inside double code text written) :
      Inside double code (word ++ ((Spacing.of breaks n).text ++ text))
        (word.flatMap code ++ (breaks ++ (List.replicate n ' ' ++ written)))

def quoteOf (double : Bool) : Char :=
  if double then '"' else '\''

theorem not_atDocumentMark {written tail : List Char}
    (hp : p.Shows ⟨written ++ quoteOf double :: tail, index, line, column⟩)
    (hcolumn : column = 0 → written = []) : p.atDocumentMark = false := by
  have hcol : p.column = column := hp.column
  have hrest : p.rest = written ++ quoteOf double :: tail := hp.rest
  rw [Place.atDocumentMark, hcol]
  by_cases hzero : column = 0
  · rw [hrest, hcolumn hzero]
    cases double <;> simp [startsWord, quoteOf, List.isPrefixOf]
  · simp [hzero]

/-- The last round of reading: a word and the closing quote. -/
theorem readQuoted_go_word {word tail : List Char} (hword : ∀ c ∈ word, Codes double c (code c))
    (htail : tail.head? ≠ some '\'')
    (hp : p.Shows ⟨word.flatMap code ++ quoteOf double :: tail, index, line, column⟩)
    (hcolumn : column = 0 → word.flatMap code = []) (fuel : Nat) (done : List Char) :
    ∃ p' index' line' column', readQuoted.go double (fuel + 1) done p =
        .ok (String.ofList (done.reverse ++ word), p') ∧ p'.Shows ⟨tail, index', line', column'⟩ := by
  have hquote : endsQuotedWord double (quoteOf double :: tail) = true := by
    cases double <;> simp [endsQuotedWord, quoteOf, htail]
  obtain ⟨p₁, hneed₁, hshows₁⟩ := hp.need 4
  obtain ⟨p₂, hread, hshows₂⟩ := readQuotedWord_eq hword hshows₁ hquote
  obtain ⟨p₃, hneed₃, hshows₃⟩ := hshows₂.need 1
  have hempty : p₁.rest.isEmpty = false := by
    rw [hshows₁.rest]
    simp
  have hhead : (p₃.rest.head? == some (if double then '"' else '\'')) = true := by
    rw [hshows₃.rest]
    cases double <;> rfl
  refine ⟨p₃.next, _, _, _, ?_, hshows₃.next⟩
  rw [readQuoted.go, hneed₁]
  simp only [bind, Except.bind, not_atDocumentMark hshows₁ hcolumn, hempty, Bool.false_eq_true,
    if_false, hread, hneed₃, hhead, if_true]
  simp [Spacing.none, Spacing.text, pure, Except.pure]

/-- A round of reading: a word and the spacing behind it. -/
theorem readQuoted_go_gap {word breaks written tail : List Char} {n : Nat}
    (hword : ∀ c ∈ word, Codes double c (code c))
    (hbreaks : ∀ b ∈ breaks, isPlainBreak b = true ∧ b ≠ '\n') (hgap : breaks = [] → n ≠ 0)
    (hnext : written.head?.any (fun c => isBlank c || isBreak c) = false)
    (hp : p.Shows ⟨word.flatMap code ++ (breaks ++ (List.replicate n ' ' ++ written)) ++
      quoteOf double :: tail, index, line, column⟩)
    (hcolumn : column = 0 →
      word.flatMap code ++ (breaks ++ (List.replicate n ' ' ++ written)) = [])
    (fuel : Nat) (done : List Char) :
    ∃ p' index' line' column', (column' = 0 → n = 0) ∧
      readQuoted.go double (fuel + 1) done p =
        readQuoted.go double fuel ((Spacing.of breaks n).text.reverse ++ (word.reverse ++ done)) p' ∧
      p'.Shows ⟨written ++ quoteOf double :: tail, index', line', column'⟩ := by
  obtain ⟨p₁, hneed₁, hshows₁⟩ := hp.need 4
  have hmark := not_atDocumentMark hshows₁ hcolumn
  simp only [List.append_assoc] at hshows₁
  obtain ⟨c, cs, hcs, hspace⟩ := exists_cons_of_gap (fun b hb => (hbreaks b hb).1) hgap
    (written ++ quoteOf double :: tail)
  have hend : endsQuotedWord double (breaks ++ (List.replicate n ' ' ++
      (written ++ quoteOf double :: tail))) = true := by
    rw [hcs]
    simp [endsQuotedWord, hspace]
  obtain ⟨p₂, hread, hshows₂⟩ := readQuotedWord_eq hword hshows₁ hend
  obtain ⟨p₃, hneed₃, hshows₃⟩ := hshows₂.need 1
  have hempty : p₁.rest.isEmpty = false := by
    rw [hshows₁.rest, hcs]
    simp
  have hhead : (p₃.rest.head? == some (if double then '"' else '\'')) = false := by
    rw [hshows₃.rest, hcs]
    have hc : c ≠ '"' ∧ c ≠ '\'' := by
      constructor <;> (rintro rfl; exact absurd hspace (by decide))
    cases double <;> simp [hc.1, hc.2]
  have hnext' : (written ++ quoteOf double :: tail).head?.any
      (fun c => isBlank c || isBreak c) = false := by
    cases written with
    | nil => cases double <;> rfl
    | cons d written => exact hnext
  obtain ⟨p₄, hspacing, hshows₄⟩ := readSpacing_eq none breaks hshows₃
    (fun b hb => (hbreaks b hb).1) hnext'
  refine ⟨p₄, _, _, _, fun hzero => ?_, ?_, hshows₄⟩
  · split at hzero <;> omega
  · rw [readQuoted.go, hneed₁]
    simp only [bind, Except.bind, hmark, hempty, Bool.false_eq_true, if_false, hread, hneed₃, hhead,
      hspacing]

/-- The text inside quotes is read back. -/
theorem readQuoted_go {text written : List Char} (h : Inside double code text written)
    {tail : List Char} (htail : tail.head? ≠ some '\'')
    (hp : p.Shows ⟨written ++ quoteOf double :: tail, index, line, column⟩)
    (hcolumn : column = 0 → written = []) (done : List Char) {fuel : Nat}
    (hfuel : written.length < fuel) :
    ∃ p' index' line' column', readQuoted.go double fuel done p =
        .ok (String.ofList (done.reverse ++ text), p') ∧ p'.Shows ⟨tail, index', line', column'⟩ := by
  induction h generalizing p index line column done fuel with
  | word hword =>
    obtain _ | fuel := fuel
    · omega
    exact readQuoted_go_word hword htail hp hcolumn fuel done
  | @gap word breaks n text written hword hbreaks hgap hnext hindent _ ih =>
    obtain _ | fuel := fuel
    · omega
    obtain ⟨p₁, _, _, _, hzero, hround, hshows⟩ :=
      readQuoted_go_gap hword hbreaks hgap hnext hp hcolumn fuel done
    -- A gap takes a character, so that there are rounds left for what follows.
    have hfuel' : written.length < fuel := by
      have hpos : 0 < breaks.length + n := by
        cases breaks with
        | nil => exact Nat.add_pos_right _ (Nat.pos_of_ne_zero (hgap rfl))
        | cons b breaks => exact Nat.add_pos_left (Nat.succ_pos _) _
      simp only [List.length_append, List.length_replicate] at hfuel
      omega
    obtain ⟨p', index', line', column', hgo, hafter⟩ :=
      ih hshows (fun h => hindent (hzero h)) _ hfuel'
    refine ⟨p', index', line', column', ?_, hafter⟩
    rw [hround, hgo]
    simp

theorem readQuoted_eq {text written : List Char} (h : Inside double code text written)
    {tail : List Char} (htail : tail.head? ≠ some '\'')
    (hp : p.Shows ⟨written ++ quoteOf double :: tail, index, line, column⟩) (hcolumn : column ≠ 0) :
    ∃ p' index' line' column', readQuoted double p = .ok (String.ofList text, p') ∧
      p'.Shows ⟨tail, index', line', column'⟩ :=
  readQuoted_go h htail hp (fun hzero => absurd hzero hcolumn) [] (by
    rw [hp.left, List.length_append]
    omega)

/-! ### Single quotes -/

/-- The code of a character in single quotes. -/
def singleCode (c : Char) : List Char :=
  if c == '\'' then ['\'', '\''] else [c]

theorem codes_singleCode (hblank : isBlank c = false) (hbreak : isBreak c = false) :
    Codes false c (singleCode c) := by
  by_cases hc : c = '\''
  · subst hc
    refine ⟨⟨'\'', ['\''], rfl, rfl, rfl⟩, ?_⟩
    intro p rest index line column h fuel done
    have hrest : p.rest = '\'' :: '\'' :: rest := h.rest
    obtain ⟨p', hneed, hshows⟩ := (Place.Shows.skip ['\'', '\''] h).need 2
    refine ⟨p', ?_, hshows⟩
    rw [readQuotedWord.go, hrest]
    have hneed' : (p.skip 2).need 2 = .ok p' := hneed
    simp [isBlank, isBreak, hneed', bind, Except.bind]
  · have hcode : singleCode c = [c] := by simp [singleCode, hc]
    rw [hcode]
    refine ⟨⟨c, [], rfl, hblank, hbreak⟩, ?_⟩
    intro p rest index line column h fuel done
    have hrest : p.rest = c :: rest := h.rest
    obtain ⟨p', hneed, hshows⟩ := (Place.Shows.next h).need 2
    refine ⟨p', ?_, hshows⟩
    rw [readQuotedWord.go, hrest]
    simp [hblank, hbreak, hc, hneed, bind, Except.bind]

/-- A list of spaces and line breaks without a change between them is of one kind. -/
theorem uniform_of_noPair {gap : List Char} (hgap : ∀ c ∈ gap, c = ' ' ∨ isBreak c = true)
    (hpair : hasPair (fun a b => (a == ' ' && isBreak b) || (isBreak a && b == ' ')) gap = false) :
    (∀ c ∈ gap, c = ' ') ∨ (∀ c ∈ gap, isBreak c = true) := by
  induction gap with
  | nil => exact .inl (List.forall_mem_nil _)
  | cons a gap ih =>
    obtain ⟨ha, hgap⟩ := List.forall_mem_cons.mp hgap
    cases gap with
    | nil =>
      rcases ha with ha | ha
      · exact .inl fun c hc => by rw [List.mem_singleton.mp hc, ha]
      · exact .inr fun c hc => by rw [List.mem_singleton.mp hc, ha]
    | cons b gap =>
      have hspace : isBreak ' ' = false := rfl
      rw [hasPair, Bool.or_eq_false_iff, Bool.or_eq_false_iff] at hpair
      obtain ⟨⟨hab, hba⟩, hrest⟩ := hpair
      rcases ih hgap hrest with hall | hall
      · left
        rcases ha with rfl | ha
        · exact List.forall_mem_cons.mpr ⟨rfl, hall⟩
        · have hb : b = ' ' := hall b List.mem_cons_self
          rw [ha, hb] at hba
          exact absurd hba (by decide)
      · right
        rcases ha with rfl | ha
        · have hb := hall b List.mem_cons_self
          rw [hb] at hab
          exact absurd hab (by decide)
        · exact List.forall_mem_cons.mpr ⟨ha, hall⟩

theorem singleQuoted_word (indent : Nat) {word : List Char} (hword : ∀ c ∈ word, isBreak c = false)
    (rest : List Char) :
    singleQuoted indent false (word ++ rest) =
      word.flatMap singleCode ++ singleQuoted indent false rest := by
  induction word with
  | nil => rfl
  | cons c word ih =>
    obtain ⟨hc, hword⟩ := List.forall_mem_cons.mp hword
    rw [List.cons_append, singleQuoted, hc, ih hword, List.flatMap_cons]
    simp [singleCode]

theorem singleQuoted_breaks {breaks : List Char} (hne : breaks ≠ [])
    (hbreaks : ∀ c ∈ breaks, isBreak c = true) (broken : Bool) (rest : List Char) :
    singleQuoted indent broken (breaks ++ rest) = breaks ++ singleQuoted indent true rest := by
  induction breaks generalizing broken with
  | nil => exact absurd rfl hne
  | cons b breaks ih =>
    obtain ⟨hb, hbreaks⟩ := List.forall_mem_cons.mp hbreaks
    rw [List.cons_append, singleQuoted, hb, if_pos rfl]
    cases breaks with
    | nil => rfl
    | cons d breaks => rw [ih (List.cons_ne_nil d breaks) hbreaks true]; rfl

theorem singleQuoted_indented (hc : isBreak c = false) (cs : List Char) :
    singleQuoted indent true (c :: cs) =
      List.replicate indent ' ' ++ singleQuoted indent false (c :: cs) := by
  rw [singleQuoted, singleQuoted, hc]
  simp [spaces]

theorem mem_singleQuoted {broken : Bool} (h : c ∈ singleQuoted indent broken cs) :
    c = ' ' ∨ c ∈ cs := by
  induction cs generalizing broken with
  | nil => nomatch h
  | cons d cs ih =>
    rw [singleQuoted] at h
    split at h
    · rcases List.mem_cons.mp h with rfl | h
      · exact .inr List.mem_cons_self
      · exact (ih h).imp_right (List.mem_cons_of_mem d)
    · rw [List.mem_append, List.mem_append] at h
      rcases h with (h | h) | h
      · split at h
        · exact .inl (List.eq_of_mem_replicate h)
        · nomatch h
      · have heq : c = d := by
          split at h
          · next hquote =>
            rw [eq_of_beq hquote]
            simpa using h
          · exact List.mem_singleton.mp h
        exact .inr (List.mem_cons.mpr (.inl heq))
      · exact (ih h).imp_right (List.mem_cons_of_mem d)

theorem isPlainBreak_of_not_isSpecial (hbreak : isBreak c = true) (h : isSpecial c = false) :
    isPlainBreak c = true := by
  have hcases : c = '\n' ∨ c = '\r' ∨ c = '\u0085' ∨ c = '\u2028' ∨ c = '\u2029' := by
    simpa [isBreak, or_assoc] using hbreak
  rcases hcases with rfl | rfl | rfl | rfl | rfl
  · rfl
  · exact absurd h (by decide)
  · exact absurd h (by decide)
  · rfl
  · rfl

theorem singleAllowed_of_append {front back : List Char} (h : singleAllowed (front ++ back) = true) :
    singleAllowed back = true := by
  simp only [singleAllowed, Bool.and_eq_true, Bool.not_eq_true', List.any_append,
    Bool.or_eq_false_iff] at h ⊢
  exact ⟨hasPair_of_append h.1, h.2.2⟩

theorem head_singleQuoted (indent : Nat)
    (h : cs.head?.any (fun c => isBlank c || isBreak c) = false) :
    (singleQuoted indent false cs).head?.any (fun c => isBlank c || isBreak c) = false := by
  cases cs with
  | nil => rfl
  | cons c cs =>
    have hc : (isBlank c || isBreak c) = false := h
    rw [singleQuoted, (Bool.or_eq_false_iff.mp hc).2]
    by_cases hquote : c = '\''
    · simp [hquote, isBlank, isBreak]
    · simpa [hquote] using hc

/-- Where a text may stand in single quotes, a gap between words is on one line, or has nothing but
    line breaks. -/
theorem gap_of_singleAllowed {word gap : List Char}
    (h : singleAllowed (word ++ (gap ++ rest)) = true)
    (hgap : ∀ c ∈ gap, (isBlank c || isBreak c) = true) :
    (∀ c ∈ gap, c = ' ') ∨ ∀ c ∈ gap, isPlainBreak c = true := by
  simp only [singleAllowed, Bool.and_eq_true, Bool.not_eq_true', List.any_eq_false,
    Bool.or_eq_true, not_or, Bool.not_eq_true, beq_eq_false_iff_ne] at h
  obtain ⟨hpairs, hchars⟩ := h
  have hmem : ∀ c ∈ gap, c ∈ word ++ (gap ++ rest) := fun c hc =>
    List.mem_append_right _ (List.mem_append_left _ hc)
  have hkinds : ∀ c ∈ gap, c = ' ' ∨ isBreak c = true := by
    intro c hc
    rcases Bool.or_eq_true_iff.mp (hgap c hc) with hblank | hbreak
    · left
      simpa [isBlank, (hchars c (hmem c hc)).1] using hblank
    · exact .inr hbreak
  have hpair := hasPair_of_append_left (hasPair_of_append hpairs)
  rcases uniform_of_noPair hkinds hpair with hspaces | hbreaks
  · exact .inl hspaces
  · right
    intro c hc
    exact isPlainBreak_of_not_isSpecial (hbreaks c hc) (hchars c (hmem c hc)).2

section Gap

variable {word gap : List Char} (hcodes : ∀ c ∈ word, Codes false c (singleCode c))
  (hne : gap ≠ []) (hrest : rest.head?.any (fun c => isBlank c || isBreak c) = false)
  (hinside : Inside false singleCode rest (singleQuoted indent false rest))
include hcodes hne hrest hinside

theorem inside_spaces (hspaces : ∀ c ∈ gap, c = ' ') :
    Inside false singleCode (word ++ (gap ++ rest))
      (word.flatMap singleCode ++ singleQuoted indent false (gap ++ rest)) := by
  have hgap : gap = List.replicate gap.length ' ' := List.eq_replicate_of_mem hspaces
  have hplain : ∀ c ∈ gap, isBreak c = false := fun c hc => by rw [hspaces c hc]; rfl
  have hcode : gap.flatMap singleCode = gap := by
    rw [hgap]
    simp [List.flatMap_replicate, singleCode]
  have hwritten : singleQuoted indent false (gap ++ rest) =
      [] ++ (List.replicate gap.length ' ' ++ singleQuoted indent false rest) := by
    rw [singleQuoted_word _ hplain, hcode, List.nil_append, ← hgap]
  have htext : gap ++ rest = (Spacing.of [] gap.length).text ++ rest := by
    rw [Spacing.text_of_nil, ← hgap]
  rw [hwritten, htext]
  refine .gap hcodes (List.forall_mem_nil _) (fun _ => ?_) (head_singleQuoted indent hrest)
    (fun hzero => ?_) hinside
  · simpa using hne
  · exact absurd (List.length_eq_zero_iff.mp hzero) hne

theorem inside_breaks (hindent : indent ≠ 0)
    (hbreaks : ∀ c ∈ gap, isPlainBreak c = true ∧ c ≠ '\n') :
    Inside false singleCode (word ++ (gap ++ rest))
      (word.flatMap singleCode ++ singleQuoted indent false (gap ++ rest)) := by
  obtain ⟨b, breaks, rfl⟩ := List.exists_cons_of_ne_nil hne
  rw [singleQuoted_breaks hne fun c hc => isBreak_of_isPlainBreak (hbreaks c hc).1]
  have htext (n : Nat) : b :: breaks ++ rest = (Spacing.of (b :: breaks) n).text ++ rest := by
    rw [Spacing.text_of_cons (hbreaks b List.mem_cons_self).2]
  have hnext := head_singleQuoted indent hrest
  -- Only where there is a next line, it is indented.
  cases rest with
  | nil =>
    have hwritten : singleQuoted indent true [] =
        List.replicate 0 ' ' ++ singleQuoted indent false [] := rfl
    rw [hwritten, htext 0]
    exact .gap hcodes hbreaks (fun h => absurd h hne) hnext (fun _ => rfl) hinside
  | cons c rest =>
    have hc : isBreak c = false := (Bool.or_eq_false_iff.mp hrest).2
    rw [singleQuoted_indented hc, htext indent]
    exact .gap hcodes hbreaks (fun h => absurd h hne) hnext (fun hzero => absurd hzero hindent)
      hinside

end Gap

/-- A text that may stand in single quotes, and has no line feed, is written in words and gaps. -/
theorem inside_singleQuoted (hindent : indent ≠ 0) (h : singleAllowed cs = true)
    (hfeed : '\n' ∉ cs) : Inside false singleCode cs (singleQuoted indent false cs) := by
  induction hlen : cs.length using Nat.strongRecOn generalizing cs with
  | ind k ih =>
    obtain ⟨word, gap, rest, rfl, hword, hgap, hrest, hall⟩ :=
      exists_word (fun c => isBlank c || isBreak c) cs
    have hcodes : ∀ c ∈ word, Codes false c (singleCode c) := by
      intro c hc
      have := hword c hc
      rw [Bool.or_eq_false_iff] at this
      exact codes_singleCode this.1 this.2
    rw [singleQuoted_word indent fun c hc => (Bool.or_eq_false_iff.mp (hword c hc)).2]
    by_cases hne : gap = []
    · -- The text is one word.
      rw [hne, hall hne]
      simpa [singleQuoted] using Inside.word hcodes
    · have hinside : Inside false singleCode rest (singleQuoted indent false rest) := by
        refine ih rest.length ?_ (singleAllowed_of_append (singleAllowed_of_append h)) ?_ rfl
        · have hpos := List.length_pos_iff.mpr hne
          rw [← hlen, List.length_append, List.length_append]
          omega
        · exact fun hmem => hfeed (List.mem_append_right _ (List.mem_append_right _ hmem))
      rcases gap_of_singleAllowed h hgap with hspaces | hbreaks
      · exact inside_spaces hcodes hne hrest hinside hspaces
      · refine inside_breaks hcodes hne hrest hinside hindent fun c hc => ⟨hbreaks c hc, ?_⟩
        rintro rfl
        exact hfeed (List.mem_append_right _ (List.mem_append_left _ hc))

/-! ### Escapes -/

theorem readEscape_letter (h : p.Shows ⟨d :: rest, index, line, column⟩)
    (hd : escapedChar? d = some c) :
    ∃ p', readEscape p = .ok (c, p') ∧ p'.Shows ⟨rest, index + 1, line, column + 1⟩ := by
  have hrest : p.rest = d :: rest := h.rest
  refine ⟨p.next, ?_, h.next⟩
  rw [readEscape, hrest]
  simp [hd]

theorem readEscape_code {width : Nat} (hwidth : 0 < width) (hc : c.toNat < 16 ^ width)
    (h : p.Shows ⟨d :: ((upperHex width c.toNat).toList ++ rest), index, line, column⟩)
    (hnone : escapedChar? d = none) (hd : codeLength? d = some width) :
    ∃ p', readEscape p = .ok (c, p') ∧
      p'.Shows ⟨rest, index + (1 + width), line, column + (1 + width)⟩ := by
  have hrest : p.rest = d :: ((upperHex width c.toNat).toList ++ rest) := h.rest
  have hlength := Text.length_upperHex hwidth hc
  obtain ⟨p', hneed, hshows⟩ := h.next.need width
  have hshows' := Place.Shows.skip _ hshows
  rw [hlength, Nat.add_assoc, Nat.add_assoc] at hshows'
  refine ⟨p'.skip width, ?_, hshows'⟩
  have hrest' : p'.rest = (upperHex width c.toNat).toList ++ rest := hshows.rest
  have hleft : ¬ p'.left < width := by
    rw [hshows.left, List.length_append, hlength]
    omega
  have htake : p'.rest.take width = (upperHex width c.toNat).toList := by
    rw [hrest', List.take_append_of_le_length (Nat.le_of_eq hlength.symm),
      List.take_of_length_le (Nat.le_of_eq hlength)]
  have hvalid := c.valid
  have hbounds : c.toNat < 0xd800 ∨ (0xdfff < c.toNat ∧ c.toNat < 0x110000) := by
    simpa [UInt32.isValidChar, Nat.isValidChar] using hvalid
  have hcode : ((decide (0xd800 ≤ c.toNat) && decide (c.toNat ≤ 0xdfff)) ||
      decide (0x10ffff < c.toNat)) = false := by
    simp only [Bool.or_eq_false_iff, Bool.and_eq_false_iff, decide_eq_false_iff_not]
    omega
  rw [readEscape, hrest]
  simp only [hnone, hd, hneed, bind, Except.bind, if_neg hleft, htake, Text.hexNumber?_upperHex]
  simp [hcode, Char.ofNat_toNat, pure, Except.pure]

/-! ### Double quotes -/

theorem codes_of_readEscape {more : List Char} (hd : isBreak d = false)
    (hread : ∀ {p : Place} {rest : List Char} {index line column : Nat},
      p.Shows ⟨d :: (more ++ rest), index, line, column⟩ → ∃ p', readEscape p = .ok (c, p') ∧
        p'.Shows ⟨rest, index + (1 + more.length), line, column + (1 + more.length)⟩) :
    Codes true c ('\\' :: d :: more) := by
  refine ⟨⟨'\\', d :: more, rfl, rfl, rfl⟩, ?_⟩
  intro p rest index line column h fuel done
  have hrest : p.rest = '\\' :: (d :: (more ++ rest)) := h.rest
  obtain ⟨p₁, hescape, hshows₁⟩ := hread (Place.Shows.next h)
  obtain ⟨p₂, hneed, hshows₂⟩ := hshows₁.need 2
  refine ⟨p₂, ?_, ?_⟩
  · have hspace : (isBlank '\\' || isBreak '\\') = false := rfl
    rw [readQuotedWord.go, hrest]
    simp [hspace, endsLine, hd, hescape, hneed, bind, Except.bind]
  · have hlength : 1 + (1 + more.length) = ('\\' :: d :: more).length := by
      rw [List.length_cons, List.length_cons]
      omega
    rwa [Nat.add_assoc, Nat.add_assoc, hlength] at hshows₂

theorem codes_letter (hd : isBreak d = false) (h : escapedChar? d = some c) :
    Codes true c ['\\', d] :=
  codes_of_readEscape hd fun hp => readEscape_letter hp h

theorem codes_code {width : Nat} (hwidth : 0 < width) (hc : c.toNat < 16 ^ width)
    (hbreak : isBreak d = false) (hnone : escapedChar? d = none) (hd : codeLength? d = some width) :
    Codes true c ('\\' :: d :: (upperHex width c.toNat).toList) := by
  refine codes_of_readEscape hbreak fun hp => ?_
  rw [Text.length_upperHex hwidth hc]
  exact readEscape_code hwidth hc hp hnone hd

theorem codes_escape (c : Char) : Codes true c (escape c).toList := by
  have heq : ∀ {n : Nat}, c.toNat = n → c = Char.ofNat n := fun h => by
    rw [← h, Char.ofNat_toNat]
  unfold escape
  split
  · next h => rw [heq h]; exact codes_letter (d := '0') rfl rfl
  · next h => rw [heq h]; exact codes_letter (d := 'a') rfl rfl
  · next h => rw [heq h]; exact codes_letter (d := 'b') rfl rfl
  · next h => rw [heq h]; exact codes_letter (d := 't') rfl rfl
  · next h => rw [heq h]; exact codes_letter (d := 'n') rfl rfl
  · next h => rw [heq h]; exact codes_letter (d := 'v') rfl rfl
  · next h => rw [heq h]; exact codes_letter (d := 'f') rfl rfl
  · next h => rw [heq h]; exact codes_letter (d := 'r') rfl rfl
  · next h => rw [heq h]; exact codes_letter (d := 'e') rfl rfl
  · next h => rw [heq h]; exact codes_letter (d := '"') rfl rfl
  · next h => rw [heq h]; exact codes_letter (d := '\\') rfl rfl
  · next h => rw [heq h]; exact codes_letter (d := 'N') rfl rfl
  · next h => rw [heq h]; exact codes_letter (d := '_') rfl rfl
  · next h => rw [heq h]; exact codes_letter (d := 'L') rfl rfl
  · next h => rw [heq h]; exact codes_letter (d := 'P') rfl rfl
  · split
    · next hle =>
      rw [String.toList_append]
      exact codes_code (d := 'x') (by omega) (by omega) rfl rfl rfl
    · split
      · next hle =>
        rw [String.toList_append]
        exact codes_code (d := 'u') (by omega) (by omega) rfl rfl rfl
      · rw [String.toList_append]
        have hmax : c.toNat < 0x110000 := Text.toNat_lt_of_char c
        exact codes_code (d := 'U') (by omega) (by omega) rfl rfl rfl

/-- The code of a character in double quotes, where all characters may have to be escaped. -/
def doubleCode (all : Bool) (c : Char) : List Char :=
  (if all || c == '"' || c == '\\' || !isPrintable c || isBreak c then escape c
    else c.toString).toList

theorem toList_doubleQuoted (cs : List Char) :
    (doubleQuoted cs).toList = cs.flatMap (doubleCode (cs.head? == some byteOrderMark)) := by
  rw [doubleQuoted, String.toList_join, List.flatMap_map]
  rfl

theorem codes_doubleCode (all : Bool) (h : all = false → c ≠ ' ') :
    Codes true c (doubleCode all c) := by
  unfold doubleCode
  by_cases hescape : (all || c == '"' || c == '\\' || !isPrintable c || isBreak c) = true
  · rw [if_pos hescape]
    exact codes_escape c
  · rw [if_neg hescape]
    simp only [Bool.or_eq_true, not_or, Bool.not_eq_true, beq_eq_false_iff_ne,
      Bool.not_eq_false'] at hescape
    obtain ⟨⟨⟨⟨hall, hquote⟩, hslash⟩, hprint⟩, hbreak⟩ := hescape
    have htab : c ≠ '\t' := by
      rintro rfl
      exact absurd hprint (by decide)
    have hblank : isBlank c = false := by simp [isBlank, h hall, htab]
    have hcode : c.toString.toList = [c] := by simp
    rw [hcode]
    refine ⟨⟨c, [], rfl, hblank, hbreak⟩, ?_⟩
    intro p rest index line column hp fuel done
    have hrest : p.rest = c :: rest := hp.rest
    obtain ⟨p', hneed, hshows⟩ := (Place.Shows.next hp).need 2
    refine ⟨p', ?_, hshows⟩
    rw [readQuotedWord.go, hrest]
    simp [hblank, hbreak, hquote, hslash, hneed, bind, Except.bind]

/-- Any text can stand in double quotes. -/
theorem inside_doubleCode (all : Bool) (cs : List Char) :
    Inside true (doubleCode all) cs (cs.flatMap (doubleCode all)) := by
  induction hlen : cs.length using Nat.strongRecOn generalizing cs with
  | ind k ih =>
    obtain ⟨word, gap, rest, rfl, hword, hgap, hrest, hall⟩ :=
      exists_word (fun c => !all && c == ' ') cs
    have hcodes : ∀ c ∈ word, Codes true c (doubleCode all c) := by
      intro c hc
      refine codes_doubleCode all fun hfalse => ?_
      simpa [hfalse] using hword c hc
    by_cases hnil : gap = []
    · rw [hnil, hall hnil, List.append_nil, List.append_nil]
      exact Inside.word hcodes
    · obtain ⟨c, gap', hcons⟩ := List.exists_cons_of_ne_nil hnil
      have hraw : all = false := by
        have := hgap c (by rw [hcons]; exact List.mem_cons_self)
        simp only [Bool.and_eq_true, Bool.not_eq_true'] at this
        exact this.1
      have hgap' : gap = List.replicate gap.length ' ' := by
        refine List.eq_replicate_of_mem fun c hc => ?_
        simpa [hraw] using hgap c hc
      have hcode : gap.flatMap (doubleCode all) = List.replicate gap.length ' ' := by
        have hspace : doubleCode all ' ' = [' '] := by rw [hraw]; rfl
        rw [hgap']
        simp [List.flatMap_replicate, hspace]
      have hinside : Inside true (doubleCode all) rest (rest.flatMap (doubleCode all)) := by
        refine ih rest.length ?_ rest rfl
        have hpos := List.length_pos_iff.mpr hnil
        rw [← hlen, List.length_append, List.length_append]
        omega
      have hnext : (rest.flatMap (doubleCode all)).head?.any (fun c => isBlank c || isBreak c) =
          false := by
        cases rest with
        | nil => rfl
        | cons d rest =>
          have hd : d ≠ ' ' := by simpa [hraw] using hrest
          obtain ⟨e, more, heq, hblank, hbreak⟩ := (codes_doubleCode all fun _ => hd).head
          rw [List.flatMap_cons, heq]
          simp [hblank, hbreak]
      have htext : gap ++ rest = (Spacing.of [] gap.length).text ++ rest := by
        rw [Spacing.text_of_nil, ← hgap']
      rw [List.flatMap_append, List.flatMap_append, hcode, htext]
      exact Inside.gap hcodes (List.forall_mem_nil _) (fun _ => by simpa using hnil)
        hnext (fun hzero => absurd (List.length_eq_zero_iff.mp hzero) hnil) hinside

theorem inside_doubleQuoted (cs : List Char) :
    Inside true (doubleCode (cs.head? == some byteOrderMark)) cs (doubleQuoted cs).toList := by
  rw [toList_doubleQuoted]
  exact inside_doubleCode _ cs

end ClassAudit.Yaml
