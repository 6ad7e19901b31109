import ClassAudit.Text.Blank

/-! # White space around and between words

    Trimming takes away the white space around a text and nothing else. `squeeze` is a way to
    write what is left of the white space between words, in one pass: a single space for each gap,
    unless the two characters around the gap make it superfluous.
-/

namespace ClassAudit.Text

variable {gap cs : List Char} {c d : Char}

def IsGap (cs : List Char) : Prop :=
  ∀ c ∈ cs, isBlank c = true

def IsSolid (cs : List Char) : Prop :=
  ∀ c ∈ cs, isBlank c = false

instance (cs : List Char) : Decidable (IsGap cs) :=
  List.decidableBAll _ cs

instance (cs : List Char) : Decidable (IsSolid cs) :=
  List.decidableBAll _ cs

theorem isGap_nil : IsGap [] := by
  intro c hc
  cases hc

/-! ### Trimming -/

theorem dropWhile_gap (h : IsGap gap) (cs : List Char) :
    (gap ++ cs).dropWhile isBlank = cs.dropWhile isBlank :=
  List.dropWhile_append_of_pos h

theorem dropWhile_solid (h : IsSolid cs) : cs.dropWhile isBlank = cs := by
  cases cs with
  | nil => rfl
  | cons c cs => rw [List.dropWhile_cons_of_neg (by simp [h c List.mem_cons_self])]

theorem dropWhile_eq_nil_iff : cs.dropWhile isBlank = [] ↔ IsGap cs := by
  constructor
  · intro h c hc
    rw [← List.takeWhile_append_dropWhile (p := isBlank) (l := cs), h, List.append_nil] at hc
    exact List.all_eq_true.mp List.all_takeWhile c hc
  · intro h
    rw [← List.append_nil cs, dropWhile_gap h]
    rfl

theorem trimEnd_append (h : IsGap gap) (cs : List Char) : trimEnd (cs ++ gap) = trimEnd cs := by
  have hgap : IsGap gap.reverse := fun c hc => h c (List.mem_reverse.mp hc)
  unfold trimEnd
  rw [List.reverse_append, dropWhile_gap hgap]

theorem trimChars_append {before after : List Char} (hbefore : IsGap before) (hafter : IsGap after)
    (cs : List Char) : trimChars (before ++ (cs ++ after)) = trimChars cs := by
  unfold trimChars
  rw [dropWhile_gap hbefore, List.dropWhile_append]
  split
  · -- Nothing stands between the gaps, so that the first step takes all.
    next hempty =>
    rw [dropWhile_eq_nil_iff.mpr hafter, List.isEmpty_iff.mp hempty]
  · exact trimEnd_append hafter _

theorem trimChars_gap_append (h : IsGap gap) (cs : List Char) :
    trimChars (gap ++ cs) = trimChars cs := by
  have htrim := trimChars_append h isGap_nil cs
  rwa [List.append_nil] at htrim

theorem trimChars_append_gap (h : IsGap gap) (cs : List Char) :
    trimChars (cs ++ gap) = trimChars cs :=
  trimChars_append isGap_nil h cs

theorem trimChars_of_isSolid (h : IsSolid cs) : trimChars cs = cs := by
  have hreverse : IsSolid cs.reverse := fun c hc => h c (List.mem_reverse.mp hc)
  unfold trimChars trimEnd
  rw [dropWhile_solid h, dropWhile_solid hreverse, List.reverse_reverse]

theorem trimChars_gaps {before after : List Char} (hbefore : IsGap before) (hcs : IsSolid cs)
    (hafter : IsGap after) : trimChars (before ++ (cs ++ after)) = cs := by
  rw [trimChars_append hbefore hafter, trimChars_of_isSolid hcs]

theorem exists_gaps (cs : List Char) :
    ∃ before after, IsGap before ∧ IsGap after ∧ cs = before ++ (trimChars cs ++ after) := by
  have hblank : ∀ cs : List Char, IsGap (cs.takeWhile isBlank) := fun cs =>
    List.all_eq_true.mp List.all_takeWhile
  refine ⟨cs.takeWhile isBlank, ((cs.dropWhile isBlank).reverse.takeWhile isBlank).reverse,
    hblank cs, fun c hc => hblank _ c (List.mem_reverse.mp hc), ?_⟩
  unfold trimChars trimEnd
  rw [← List.reverse_append, List.takeWhile_append_dropWhile, List.reverse_reverse,
    List.takeWhile_append_dropWhile]

theorem trimChars_eq_nil_iff : trimChars cs = [] ↔ IsGap cs := by
  constructor
  · intro h
    obtain ⟨before, after, hbefore, hafter, hcs⟩ := exists_gaps cs
    rw [h, List.nil_append] at hcs
    intro c hc
    rw [hcs, List.mem_append] at hc
    exact hc.elim (hbefore c) (hafter c)
  · intro h
    rw [trimChars, dropWhile_eq_nil_iff.mpr h]
    rfl

/-! ### Squeezing -/

/-- What is written in front of a character: a space if there is a gap behind the last character,
    and the two do not make it superfluous. -/
def separator (superfluous : Char → Char → Bool) (last : Option Char) (gap : Bool) (c : Char) :
    List Char :=
  match last, gap with
  | some b, true => if superfluous b c then [] else [' ']
  | _, _ => []

/-- A text with a separator in the place of every gap. `last` is the last character of the text so
    far, and `gap` says whether white space has come since. -/
def squeeze (superfluous : Char → Char → Bool) (last : Option Char) (gap : Bool) :
    List Char → List Char
  | [] => []
  | c :: cs =>
    if isBlank c then squeeze superfluous last true cs
    else separator superfluous last gap c ++ c :: squeeze superfluous (some c) false cs

variable {superfluous : Char → Char → Bool} {last : Option Char} {gap : Bool}

theorem squeeze_blank (h : isBlank c = true) (cs : List Char) :
    squeeze superfluous last gap (c :: cs) = squeeze superfluous last true cs := by
  simp [squeeze, h]

theorem squeeze_cons (h : isBlank c = false) (cs : List Char) :
    squeeze superfluous last gap (c :: cs) =
      separator superfluous last gap c ++ c :: squeeze superfluous (some c) false cs := by
  simp [squeeze, h]

@[simp] theorem separator_false (last : Option Char) (c : Char) :
    separator superfluous last false c = [] := by
  cases last <;> rfl

theorem separator_superfluous (h : ∀ b ∈ last, superfluous b c = true) :
    separator superfluous last gap c = [] := by
  unfold separator
  split
  · next b => rw [if_pos (h b rfl)]
  · rfl

theorem squeeze_gap {space : List Char} (h : IsGap space) (cs : List Char) :
    squeeze superfluous last gap (space ++ cs) =
      squeeze superfluous last (gap || !space.isEmpty) cs := by
  induction space generalizing gap with
  | nil => simp
  | cons c space ih =>
    rw [List.cons_append, squeeze_blank (h c List.mem_cons_self),
      ih fun d hd => h d (List.mem_cons_of_mem _ hd)]
    simp

/-- Without a gap nothing is written between characters. -/
theorem squeeze_solid {word : List Char} (h : IsSolid word) (cs : List Char) :
    squeeze superfluous last false (word ++ cs) =
      word ++ squeeze superfluous (word.getLast?.or last) false cs := by
  induction word generalizing last with
  | nil => rfl
  | cons c word ih =>
    have hc : isBlank c = false := h c List.mem_cons_self
    have hword : IsSolid word := fun d hd => h d (List.mem_cons_of_mem _ hd)
    have hlast : (c :: word).getLast?.or last = word.getLast?.or (some c) := by
      rw [List.getLast?_cons]
      cases word.getLast? <;> rfl
    simp [squeeze_cons hc, ih hword, hlast]

/-! ### Words -/

theorem words_blank (h : isBlank c = true) (cs : List Char) : words (c :: cs) = words cs := by
  cases cs <;> simp [words, h]

theorem words_end (hc : isBlank c = false) (hd : isBlank d = true) (cs : List Char) :
    words (c :: d :: cs) = [c] :: words (d :: cs) := by
  simp [words, hc, hd]

theorem words_ne_nil (h : isBlank c = false) (cs : List Char) : words (c :: cs) ≠ [] := by
  cases cs with
  | nil => simp [words, h]
  | cons d cs =>
    rw [words, if_neg (by simp [h])]
    split
    · simp
    · split <;> simp

theorem words_start (hc : isBlank c = false) (hd : isBlank d = false) (cs : List Char) :
    ∃ word rest, words (d :: cs) = word :: rest ∧ words (c :: d :: cs) = (c :: word) :: rest := by
  obtain ⟨word, rest, hwords⟩ := List.exists_cons_of_ne_nil (words_ne_nil hd cs)
  exact ⟨word, rest, hwords, by simp [words, hc, hd, hwords]⟩

/-- Words with a space between them. -/
def spacedWords (cs : List Char) : List Char :=
  [' '].intercalate (words cs)

theorem spacedWords_end (hc : isBlank c = false) (hd : isBlank d = true) (cs : List Char) :
    spacedWords (c :: d :: cs) =
      c :: if words (d :: cs) = [] then [] else ' ' :: spacedWords (d :: cs) := by
  unfold spacedWords
  rw [words_end hc hd]
  cases words (d :: cs) with
  | nil => rfl
  | cons word rest => simp [List.intercalate_cons_cons]

theorem spacedWords_start (hc : isBlank c = false) (hd : isBlank d = false) (cs : List Char) :
    spacedWords (c :: d :: cs) = c :: spacedWords (d :: cs) := by
  obtain ⟨word, rest, hwords, hwords'⟩ := words_start hc hd cs
  unfold spacedWords
  rw [hwords, hwords']
  cases rest with
  | nil => rfl
  | cons next rest => simp [List.intercalate_cons_cons]

/-- Where no gap is superfluous, squeezing puts a space between words. Behind a character the space
    is written with the word that follows it, if there is one. -/
theorem squeeze_words (cs : List Char) :
    (∀ gap, squeeze (fun _ _ => false) none gap cs = spacedWords cs) ∧
      ∀ b, squeeze (fun _ _ => false) (some b) true cs =
        if words cs = [] then [] else ' ' :: spacedWords cs := by
  induction cs with
  | nil => simp [squeeze, spacedWords, words]
  | cons c cs ih =>
    cases hc : isBlank c with
    | true =>
      simp only [squeeze_blank hc, words_blank hc]
      have hwords : spacedWords (c :: cs) = spacedWords cs := by
        unfold spacedWords
        rw [words_blank hc]
      rw [hwords]
      exact ⟨fun _ => ih.1 true, ih.2⟩
    | false =>
      -- What follows the character, up to the next one.
      have hnext : spacedWords (c :: cs) = c :: squeeze (fun _ _ => false) (some c) false cs := by
        cases cs with
        | nil => simp [spacedWords, words, squeeze, hc, List.intercalate]
        | cons d cs =>
          cases hd : isBlank d with
          | true =>
            have hgap := ih.2 c
            rw [squeeze_blank hd] at hgap
            rw [spacedWords_end hc hd, squeeze_blank hd, hgap]
          | false =>
            have hword := ih.1 false
            rw [spacedWords_start hc hd, ← hword]
            simp [squeeze_cons hd]
      simp only [squeeze_cons hc, hnext, words_ne_nil hc, if_false]
      exact ⟨fun _ => rfl, fun _ => rfl⟩

end ClassAudit.Text
