import ClassAudit.Proofs.Yaml.Layout

/-! # What written texts say

    A text is written in one of four forms, and bytes that are no text are written in base 64 with
    a tag. Each form says a scalar with the text, except for a literal block that starts with white
    space: it does not show how far its lines are indented.
-/

namespace ClassAudit.Yaml

variable {c : Char} {cs : List Char} {indent step : Nat} {text : String} {form : TextForm}

open TokenStream

/-! ### Scalars behind a colon -/

variable {column : Nat}

theorem Spoken.of_scalar {body : List Char} {kinds : List TokenKind}
    (hbody : ∀ rest, startsToken (body ++ rest) = true)
    (hscript : ∀ {here n : Nat} {next : List Char} {columns : List Nat} {more : List TokenKind},
      column < here → n ≤ column → startsToken next = true →
      (column :: columns).length < depthLimit →
      Script (before true n next (column :: columns)) more →
      Script (before false here (body ++ (List.replicate n ' ' ++ next)) (column :: columns))
        (kinds ++ more))
    (hwritten : ∀ c ∈ body, isWritten c = true) (hshort : kinds.length ≤ 4 * body.length) :
    Spoken column 0 (' ' :: body) kinds where
  script := by
    intro here n next columns more hhere hn hnext hdepth hmore
    have hscalar := hscript (Nat.lt_succ_of_lt hhere) hn hnext hdepth hmore
    exact hscalar.within (between_within_before _ _ 1 (hbody _))
  follows rest := by
    refine ⟨rfl, ?_⟩
    have hcomment := noComment_of_startsToken (hbody rest)
    simpa [noComment, isBlank] using hcomment
  written := by
    intro c hc
    rcases List.mem_cons.mp hc with rfl | hc
    · rfl
    · exact hwritten c hc
  short := by
    rw [List.length_cons]
    omega

theorem Spoken.tagged {body : List Char} {kinds : List TokenKind}
    (h : Spoken column 0 (' ' :: body) kinds) {name : List Char} (hne : name ≠ [])
    (hname : ∀ c ∈ name, c.isAlpha = true) :
    Spoken column 0 (' ' :: '!' :: '!' :: (name ++ ' ' :: body))
      (.tag "!!" (String.ofList name) :: kinds) := by
  refine Spoken.of_scalar (fun rest => rfl) ?_ ?_ ?_
  · intro here n next columns more hhere hn hnext hdepth hmore
    obtain ⟨-, hcomment⟩ := h.follows (List.replicate n ' ' ++ next)
    have hscalar := h.script (show column < here + 2 + name.length by omega) hn hnext hdepth hmore
    have hstep := Script.step (emits_tag hne hname hcomment (le_inside hhere) (by omega)) hscalar
    simpa using hstep
  · intro c hc
    simp only [List.mem_cons, List.mem_append] at hc
    rcases hc with rfl | rfl | hc | hc
    · rfl
    · rfl
    · exact isWritten_of_isNameChar (by simp [isNameChar, Char.isAlphanum, hname c hc])
    · exact h.written c (List.mem_cons.mpr hc)
  · have := h.short
    simp only [List.length_cons, List.length_append] at this ⊢
    omega

/-! ### Forms -/

/-- How the scalar of a form is written. -/
def TextForm.style : TextForm → ScalarStyle
  | .plain => .plain
  | .singleQuoted | .doubleQuoted => .quoted
  | .literal => .block

/-- Whether a text is read back from a form. -/
def TextForm.Fits : TextForm → List Char → Prop
  | .plain, cs => cs ≠ [] ∧ plainAllowed cs = true
  | .singleQuoted, cs => singleAllowed cs = true ∧ '\n' ∉ cs
  | .doubleQuoted, _ => True
  | .literal, cs => cs ≠ [] ∧ cs.head?.any (fun c => isBlank c || isBreak c) = false ∧
      ∀ c ∈ cs, isSpecial c = false

theorem toList_endLine (text : String) :
    (endLine text).toList =
      text.toList ++ if text.toList.getLast?.any isBreak then [] else ['\n'] := by
  unfold endLine
  split
  · rw [List.append_nil]
  · rw [String.toList_append]
    rfl

theorem isWritten_of_not_isSpecial (h : isSpecial c = false) : isWritten c = true := by
  by_cases htab : c = '\t'
  · rw [htab]
    rfl
  · exact isWritten_of_isPrintable (by simpa [isSpecial, htab] using h)

theorem spoken_plain (hne : cs ≠ []) (h : plainAllowed cs = true) :
    Spoken column 0 (' ' :: (cs ++ ['\n'])) [.scalar (String.ofList cs) .plain] := by
  have hplain := PlainFrom.of_plainAllowed hne h
  have hspecial : ∀ c ∈ cs, isSpecial c = false := by
    intro c hc
    simp only [plainAllowed, Bool.and_eq_true, Bool.not_eq_true', List.any_eq_false,
      Bool.or_eq_true, not_or, Bool.not_eq_true] at h
    exact (h.2 c hc).2
  refine Spoken.of_scalar ?_ ?_ ?_ ?_
  · obtain ⟨c, cs, rfl⟩ := List.exists_cons_of_ne_nil hne
    intro rest
    have hspace : c ≠ ' ' := fun heq => hplain.noBlank (by rw [heq]; rfl)
    have hsign : c ≠ '#' := fun heq => hplain.noSign (by rw [heq]; rfl)
    obtain ⟨hbreak, htab⟩ := hplain.chars c List.mem_cons_self
    simp [startsToken, isBlank, hspace, hsign, hbreak, htab]
  · intro here n next columns more hhere hn hnext hdepth hmore
    have hstep := Script.step (emits_plain hne h hhere hn hnext)
      (hmore.within (between_within_before _ _ 0 hnext))
    simpa using hstep
  · intro c hc
    rcases List.mem_append.mp hc with hc | hc
    · exact isWritten_of_not_isSpecial (hspecial c hc)
    · rw [List.mem_singleton.mp hc]
      rfl
  · rw [List.length_append, List.length_singleton, List.length_singleton]
    omega

theorem plainAllowed_of_isPlainWord (h : isPlainWord cs = true) : plainAllowed cs = true := by
  obtain ⟨d, cs, rfl⟩ := exists_cons_of_isPlainWord h
  obtain ⟨hd, hlast, hchars⟩ := isPlainWord_iff.mp h
  have hblank : ∀ c ∈ d :: cs, c ≠ ' ' ∧ c ≠ '\t' := fun c hc => by
    simpa [isBlank] using (hchars c hc).1
  have hindicator : startsWithIndicator (d :: cs) = false := by
    have hsigns : "#,[]\x7b\x7d&*!|>'\"%@`".toList.contains d = false := by
      simp [ne_of_isNameChar hd, isNameChar]
    have hdash : '-' ≠ d := (ne_of_isNameChar hd rfl).symm
    have hdot : '.' ≠ d := (ne_of_isNameChar hd rfl).symm
    have hmark : d ≠ '?' := ne_of_isNameChar hd rfl
    rw [startsWithIndicator, hsigns]
    simp [List.isPrefixOf, hdash, hdash.symm, hdot, hmark]
  have hpair : ∀ l : List Char, (∀ c ∈ l, isBlank c = false) →
      hasPair (fun a b => isBlank a && b == '#') l = false := by
    intro l hl
    induction l with
    | nil => rfl
    | cons a l ih =>
      obtain ⟨ha, hl⟩ := List.forall_mem_cons.mp hl
      cases l with
      | nil => rfl
      | cons b l => rw [hasPair, ha, ih hl]; rfl
  have hend : (d :: cs).getLast? ≠ some ' ' := fun heq =>
    (hblank ' ' (List.mem_of_getLast? heq)).1 rfl
  have hany : ((d :: cs).any fun c => isBreak c || c == '\t' || isSpecial c) = false := by
    rw [List.any_eq_false]
    intro c hc
    obtain ⟨-, hbreak, hspecial⟩ := hchars c hc
    simp [hbreak, hspecial, (hblank c hc).2]
  rw [plainAllowed, hindicator, hany, hpair _ fun c hc => (hchars c hc).1,
    hasValueMark_of_word (fun c hc => ⟨(hchars c hc).1, (hchars c hc).2.1⟩) hlast]
  simpa using ⟨(hblank d List.mem_cons_self).1, hend⟩

theorem spoken_quoted {double : Bool} {code : Char → List Char} {text written : List Char}
    (h : Inside double code text written) (hwritten : ∀ c ∈ written, isWritten c = true) :
    Spoken column 0 (' ' :: quoteOf double :: (written ++ [quoteOf double, '\n']))
      [.scalar (String.ofList text) .quoted] := by
  have hquote : isWritten (quoteOf double) = true ∧ startsToken [quoteOf double] = true := by
    cases double <;> exact ⟨rfl, rfl⟩
  refine Spoken.of_scalar (fun rest => hquote.2) ?_ ?_ ?_
  · intro here n next columns more hhere hn hnext hdepth hmore
    have hstep := Script.step
      (emits_quoted h (List.replicate n ' ' ++ next) (le_inside hhere) (by omega))
      (hmore.within (anywhere_within_before_below n hnext))
    simpa using hstep
  · intro c hc
    rw [List.mem_cons, List.mem_append] at hc
    rcases hc with rfl | hc | hc
    · exact hquote.1
    · exact hwritten c hc
    · rcases List.mem_cons.mp hc with rfl | hc
      · exact hquote.1
      · rw [List.mem_singleton.mp hc]
        rfl
  · simp only [List.length_cons, List.length_nil]
    omega

theorem spoken_literal {chomping : Chomping} (h : LiteralText chomping cs)
    (hblank : cs.head?.any isBlank = false) (hspecial : ∀ c ∈ cs, isSpecial c = false)
    (hindent : column < indent) :
    Spoken column 0
      (' ' :: '|' :: (chomping.sign ++ '\n' :: (literalLines indent true cs ++ chomping.ending)))
      [.scalar (String.ofList cs) .block] := by
  refine Spoken.of_scalar (fun rest => rfl) ?_ ?_ ?_
  · intro here n next columns more hhere hn hnext hdepth hmore
    have hstep := Script.step (emits_literal h hblank hindent hhere hn hnext)
      (hmore.within (between_within_before _ _ 0 hnext))
    simpa using hstep
  · intro c hc
    simp only [List.mem_cons, List.mem_append] at hc
    rcases hc with rfl | hc | rfl | hc | hc
    · rfl
    · cases chomping <;> simp only [Chomping.sign, List.mem_singleton, List.not_mem_nil] at hc
      · rw [hc]; rfl
      · rw [hc]; rfl
    · rfl
    · rcases mem_literalLines hc with rfl | hc
      · rfl
      · exact isWritten_of_not_isSpecial (hspecial c hc)
    · cases chomping <;> simp only [Chomping.ending, List.mem_singleton, List.not_mem_nil] at hc
      rw [hc]; rfl
  · simp only [List.length_cons, List.length_nil]
    omega

/-! ### What texts say in each form -/

/-- A character that can be written, and does not end a line. -/
def isInline (c : Char) : Bool :=
  isWritten c && !isBreak c

theorem isInline_iff : isInline c = true ↔ isWritten c = true ∧ isBreak c = false := by
  rw [isInline, Bool.and_eq_true, Bool.not_eq_true']

theorem isInline_of_mem_escape {d : Char} (h : d ∈ (escape c).toList) : isInline d = true := by
  have hdigit : ∀ d < 16, isInline (Nat.digitChar d).toUpper = true := by decide
  have hcode : ∀ {width : Nat} (mark : Char), isInline mark = true →
      d ∈ '\\' :: mark :: (upperHex width c.toNat).toList → isInline d = true := by
    intro width mark hmark hd
    rw [List.mem_cons, List.mem_cons] at hd
    rcases hd with rfl | rfl | hd
    · rfl
    · exact hmark
    · obtain ⟨n, hn, rfl⟩ := Text.exists_digit_of_mem_upperHex hd
      exact hdigit n hn
  have hletter : ∀ {mark : Char}, isInline mark = true → d ∈ ['\\', mark] →
      isInline d = true := by
    intro mark hmark hd
    rw [List.mem_cons, List.mem_singleton] at hd
    rcases hd with rfl | rfl
    · rfl
    · exact hmark
  unfold escape at h
  split at h
  case h_16 =>
    split at h
    · exact hcode 'x' rfl (by simpa using h)
    · split at h
      · exact hcode 'u' rfl (by simpa using h)
      · exact hcode 'U' rfl (by simpa using h)
  all_goals
    simp only [String.reduceToList] at h
    exact hletter (by rfl) h

theorem isInline_of_mem_doubleCode {all : Bool} {d : Char} (h : d ∈ doubleCode all c) :
    isInline d = true := by
  unfold doubleCode at h
  split at h
  · exact isInline_of_mem_escape h
  · next hescape =>
    simp only [Bool.or_eq_true, not_or, Bool.not_eq_true, Bool.not_eq_false'] at hescape
    have hd : d = c := by simpa using h
    rw [hd]
    exact isInline_iff.mpr ⟨isWritten_of_isPrintable hescape.1.2, hescape.2⟩

theorem toList_endLine_quoted {double : Bool} {written : List Char}
    (h : text.toList = quoteOf double :: (written ++ [quoteOf double])) :
    (endLine text).toList = quoteOf double :: (written ++ [quoteOf double, '\n']) := by
  have hlast : text.toList.getLast? = some (quoteOf double) := by
    rw [h]
    exact List.getLast?_concat (l := quoteOf double :: written)
  have hquote : isBreak (quoteOf double) = false := by cases double <;> rfl
  rw [toList_endLine, hlast, h]
  simp [hquote]

theorem toList_endLine_literal {chomping : Chomping} (step : Nat) (hne : text.toList ≠ [])
    (h : LiteralText chomping text.toList) (hbreak : text.toList.head?.any isBreak = false)
    (hblank : text.toList.head?.any isBlank = false) :
    (endLine (textIn step indent text .literal)).toList =
      '|' :: (chomping.sign ++ '\n' :: (literalLines indent true text.toList ++ chomping.ending)) := by
  have hlist : (textIn step indent text .literal).toList =
      '|' :: (chomping.sign ++ ['\n']) ++ literalLines indent true text.toList := by
    rw [textIn, String.toList_append, String.toList_ofList, toList_literalHeader h hblank,
      literalBody, hbreak]
    simp
  obtain ⟨c, hc⟩ : ∃ c, text.toList.getLast? = some c := ⟨_, List.getLast?_eq_some_getLast hne⟩
  have hlast : (textIn step indent text .literal).toList.getLast? = text.toList.getLast? := by
    rw [hlist, List.getLast?_append, getLast?_literalLines, hc]
    rfl
  rw [toList_endLine, hlast, hlist, h.ending_eq]
  simp

/-- A text says a scalar in a form that it is read back from. -/
theorem spoken_textIn (step : Nat) (hindent : column < indent) (h : form.Fits text.toList) :
    Spoken column 0 (' ' :: (endLine (textIn step indent text form)).toList)
      [.scalar text form.style] := by
  have htext : String.ofList text.toList = text := String.ofList_toList
  cases form with
  | plain =>
    obtain ⟨hne, hplain⟩ := h
    have hlast : text.toList.getLast?.any isBreak = false := by
      cases hlast : text.toList.getLast? with
      | none => rfl
      | some c =>
        exact ((PlainFrom.of_plainAllowed hne hplain).chars c (List.mem_of_getLast? hlast)).1
    have hspoken : Spoken column 0 _ _ := spoken_plain hne hplain
    rw [htext] at hspoken
    rw [toList_endLine, textIn, hlast]
    exact hspoken
  | singleQuoted =>
    obtain ⟨hsingle, hfeed⟩ := h
    have hspecial : ∀ c ∈ text.toList, isSpecial c = false := by
      intro c hc
      simp only [singleAllowed, Bool.and_eq_true, Bool.not_eq_true', List.any_eq_false,
        Bool.or_eq_true, not_or, Bool.not_eq_true] at hsingle
      exact (hsingle.2 c hc).2
    have hinside := inside_singleQuoted (show indent ≠ 0 by omega) hsingle hfeed
    have hspoken : Spoken column 0 _ _ := spoken_quoted hinside (fun c hc => by
        rcases mem_singleQuoted hc with rfl | hc
        · rfl
        · exact isWritten_of_not_isSpecial (hspecial c hc))
    rw [htext] at hspoken
    have hlist : (textIn step indent text .singleQuoted).toList =
        quoteOf false :: (singleQuoted indent false text.toList ++ [quoteOf false]) := by
      simp [textIn, quoteOf]
    rw [toList_endLine_quoted hlist]
    exact hspoken
  | doubleQuoted =>
    have hspoken : Spoken column 0 _ _ := spoken_quoted (inside_doubleQuoted text.toList)
      (fun c hc => by
        rw [toList_doubleQuoted, List.mem_flatMap] at hc
        obtain ⟨d, -, hc⟩ := hc
        exact (isInline_iff.mp (isInline_of_mem_doubleCode hc)).1)
    rw [htext] at hspoken
    have hlist : (textIn step indent text .doubleQuoted).toList =
        quoteOf true :: ((doubleQuoted text.toList).toList ++ [quoteOf true]) := by
      simp [textIn, quoteOf]
    rw [toList_endLine_quoted hlist]
    exact hspoken
  | literal =>
    obtain ⟨hne, hfirst, hspecial⟩ := h
    obtain ⟨hbreak, hblank⟩ := head_any_or hfirst
    obtain ⟨chomping, hliteral⟩ := LiteralText.exists_of_plain hne hbreak
      (fun c hc hbreak => isPlainBreak_of_not_isSpecial hbreak (hspecial c hc))
    have hspoken := spoken_literal hliteral hblank hspecial hindent
    rw [htext] at hspoken
    rw [toList_endLine_literal step hne hliteral hbreak hblank]
    exact hspoken

/-! ### Texts -/

theorem toList_textIn_ne_nil (step indent : Nat) (h : form.Fits text.toList) :
    (textIn step indent text form).toList ≠ [] := by
  cases form with
  | plain => exact h.1
  | singleQuoted => simp [textIn]
  | doubleQuoted => simp [textIn]
  | literal => simp [textIn, literalHeader]

theorem toList_endLine_append (front : String) (hne : text.toList ≠ []) :
    (endLine (front ++ text)).toList = front.toList ++ (endLine text).toList := by
  obtain ⟨c, hc⟩ : ∃ c, text.toList.getLast? = some c := ⟨_, List.getLast?_eq_some_getLast hne⟩
  rw [toList_endLine, toList_endLine, String.toList_append, List.append_assoc, List.getLast?_append,
    hc]
  rfl

/-- A text is read back from the form in which it is written, if that shows its indentation. -/
theorem fits_textForm
    (h : textForm text = .literal →
      text.toList.head?.any (fun c => isBlank c || isBreak c) = false) :
    (textForm text).Fits text.toList := by
  by_cases hfeed : text.toList.contains '\n' = true
  · have hne : text.toList ≠ [] := by
      intro hnil
      rw [hnil] at hfeed
      nomatch hfeed
    by_cases hliteral : literalAllowed text.toList = true
    · have hform : textForm text = .literal := by simp only [textForm, hfeed, hliteral, if_true]
      rw [hform]
      refine ⟨hne, h hform, ?_⟩
      simp only [literalAllowed, Bool.and_eq_true, Bool.not_eq_true', List.any_eq_false,
        Bool.not_eq_true] at hliteral
      exact hliteral.2
    · rw [textForm, if_pos hfeed, if_neg hliteral]
      trivial
  · have hmem : '\n' ∉ text.toList := by simpa using hfeed
    rw [textForm, if_neg hfeed]
    split
    · next hreads =>
      split
      · next hplain =>
        refine ⟨?_, hplain⟩
        intro hnil
        rw [String.toList_eq_nil_iff.mp hnil] at hreads
        exact absurd hreads (by decide)
      · split
        · next hsingle => exact ⟨hsingle, hmem⟩
        · trivial
    · trivial

/-- Whether what is written of a text shows how far its lines are indented: it is no literal block,
    or it starts with neither a blank nor a line break. -/
def showsIndentation (s : ByteString) : Bool :=
  match Text.ofUtf8? s.bytes with
  | some text => textForm text != .literal ||
      !text.toList.head?.any fun c => isBlank c || isBreak c
  | none => true

/-! ### Texts of one line -/

theorem textForm_ne_literal (h : '\n' ∉ text.toList) : textForm text ≠ .literal := by
  have hfeed : ¬text.toList.contains '\n' = true := by simpa using h
  unfold textForm
  rw [if_neg hfeed]
  split
  · split
    · simp
    · split <;> simp
  · simp

/-- A text of one line stands on one line in each form that is no block. -/
theorem lineFeed_not_mem_textIn (hform : form ≠ .literal) (h : '\n' ∉ text.toList) :
    '\n' ∉ (textIn step indent text form).toList := by
  cases form with
  | plain => exact h
  | singleQuoted =>
    have hinside : '\n' ∉ singleQuoted indent false text.toList := by
      intro hmem
      rcases mem_singleQuoted hmem with heq | hmem
      · cases heq
      · exact h hmem
    simpa [textIn] using hinside
  | doubleQuoted =>
    have hinside : '\n' ∉ (doubleQuoted text.toList).toList := by
      rw [toList_doubleQuoted, List.mem_flatMap]
      rintro ⟨d, -, hmem⟩
      cases isInline_of_mem_doubleCode hmem
    simpa [textIn] using hinside
  | literal => exact absurd rfl hform

theorem showsIndentation_of_not_mem {s : String} (h : '\n' ∉ s.toList) :
    showsIndentation s = true := by
  have htext : Text.ofUtf8? (s : ByteString).bytes = some s := Text.ofUtf8?_utf8 s
  rw [showsIndentation, htext]
  simp [textForm_ne_literal h]

theorem lineFeed_not_mem_textOf {s : String} (h : '\n' ∉ s.toList) :
    '\n' ∉ (textOf step indent s).toList := by
  have htext : Text.ofUtf8? (s : ByteString).bytes = some s := Text.ofUtf8?_utf8 s
  rw [textOf, htext]
  exact lineFeed_not_mem_textIn (textForm_ne_literal h) h

def textKinds (s : ByteString) : List TokenKind :=
  match Text.ofUtf8? s.bytes with
  | some text => [.scalar text (textForm text).style]
  | none =>
    let cs := wrap 70 (Text.toBase64 s.bytes)
    [.tag "!!" "binary", .scalar (String.ofList cs) (if cs.contains '\n' then .block else .plain)]

theorem isSpecial_of_isBase64 (h : Text.isBase64 c = true) : isSpecial c = false := by
  have hcases : c.isAlphanum = true ∨ c = '+' ∨ c = '/' ∨ c = '=' := by
    simpa [Text.isBase64, or_assoc] using h
  rcases hcases with h | rfl | rfl | rfl
  · exact isSpecial_of_isNameChar (by rw [isNameChar, h, Bool.true_or])
  all_goals rfl

theorem plainAllowed_of_isBase64 (h : ∀ c ∈ cs, Text.isBase64 c = true) :
    plainAllowed cs = true := by
  have hne : ∀ {d : Char}, Text.isBase64 d = false → d ∉ cs := fun hd hmem => by
    rw [h _ hmem] at hd
    nomatch hd
  have hindicator : startsWithIndicator cs = false := by
    cases cs with
    | nil => rfl
    | cons c rest =>
      have hc := h c List.mem_cons_self
      have hcheck : ("#,[]\x7b\x7d&*!|>'\"%@`".toList.all fun d => !Text.isBase64 d) = true := by decide
      have hsigns : ∀ d ∈ "#,[]\x7b\x7d&*!|>'\"%@`".toList, Text.isBase64 d = false := fun d hd => by
        have hd' := List.all_eq_true.mp hcheck d hd
        simpa using hd'
      have hnot : "#,[]\x7b\x7d&*!|>'\"%@`".toList.contains c = false := by
        rw [List.contains_eq_mem, decide_eq_false_iff_not]
        intro hmem
        rw [hsigns c hmem] at hc
        nomatch hc
      have hdash := Text.ne_of_isBase64 hc (d := '-') rfl
      have hdot := Text.ne_of_isBase64 hc (d := '.') rfl
      have hquestion := Text.ne_of_isBase64 hc (d := '?') rfl
      rw [startsWithIndicator, hnot]
      simp [List.isPrefixOf, hdash, Ne.symm hdash, Ne.symm hdot, hquestion]
  have hvalue : ∀ {l : List Char}, ':' ∉ l → hasValueMark l = false := by
    intro l hl
    induction l with
    | nil => rfl
    | cons c l ih =>
      rw [List.mem_cons, not_or] at hl
      simp [hasValueMark, Ne.symm hl.1, ih hl.2]
  have hpair : ∀ {l : List Char}, '#' ∉ l → hasPair (fun a b => isBlank a && b == '#') l = false := by
    intro l hl
    induction l with
    | nil => rfl
    | cons a l ih =>
      rw [List.mem_cons, not_or] at hl
      cases l with
      | nil => rfl
      | cons b l =>
        have hb : b ≠ '#' := fun heq => hl.2 (by rw [heq]; exact List.mem_cons_self)
        simp [hasPair, hb, ih hl.2]
  have hchars : (cs.any fun c => isBreak c || c == '\t' || isSpecial c) = false := by
    rw [List.any_eq_false]
    intro c hc
    have hcode := h c hc
    have hbreak : ∀ {d : Char}, Text.isBase64 d = false → c ≠ d := Text.ne_of_isBase64 hcode
    simp [isBreak, hbreak (d := '\n') rfl, hbreak (d := '\r') rfl, hbreak (d := '\u0085') rfl,
      hbreak (d := '\u2028') rfl, hbreak (d := '\u2029') rfl, hbreak (d := '\t') rfl,
      isSpecial_of_isBase64 hcode]
  have hfirst : cs.head? ≠ some ' ' := fun heq => hne rfl (List.mem_of_mem_head? heq)
  have hlast : cs.getLast? ≠ some ' ' := fun heq => hne rfl (List.mem_of_getLast? heq)
  simp [plainAllowed, hindicator, hvalue (hne rfl), hpair (hne rfl), hfirst, hlast, hchars]

/-- Bytes in base 64 are read back, as a literal block or as a plain scalar. -/
theorem fits_wrap {bytes : List UInt8} (hne : bytes ≠ []) :
    (if (wrap 70 (Text.toBase64 bytes)).contains '\n' then TextForm.literal else .plain).Fits
      (wrap 70 (Text.toBase64 bytes)) := by
  have hcodes : ∀ c ∈ wrap 70 (Text.toBase64 bytes), Text.isBase64 c = true ∨ c = '\n' :=
    fun c hc => (Text.mem_wrap hc).imp_left Text.isBase64_of_mem
  have hhead := Text.head?_wrap (by omega : 0 < 70) (Text.toBase64 bytes)
  obtain ⟨c, hmem, hc⟩ : ∃ c, (Text.toBase64 bytes).head? = some c ∧ Text.isBase64 c = true := by
    obtain ⟨c, cs, hcs⟩ := List.exists_cons_of_ne_nil (Text.toBase64_ne_nil hne)
    refine ⟨c, by rw [hcs]; rfl, Text.isBase64_of_mem (by rw [hcs]; exact List.mem_cons_self)⟩
  rw [hmem] at hhead
  have hwrap : wrap 70 (Text.toBase64 bytes) ≠ [] := by
    intro hnil
    rw [hnil] at hhead
    nomatch hhead
  split
  · refine ⟨hwrap, ?_, ?_⟩
    · have hplain : plainAllowed [c] = true := plainAllowed_of_isBase64 (by simpa using hc)
      have hfrom := PlainFrom.of_plainAllowed (List.cons_ne_nil c []) hplain
      obtain ⟨hbreak, htab⟩ := hfrom.chars c List.mem_cons_self
      have hspace : c ≠ ' ' := fun heq => hfrom.noBlank (by rw [heq]; rfl)
      rw [hhead]
      simp [isBlank, hspace, htab, hbreak]
    · intro d hd
      rcases hcodes d hd with hd | rfl
      · exact isSpecial_of_isBase64 hd
      · rfl
  · next hfeed =>
    refine ⟨hwrap, plainAllowed_of_isBase64 fun d hd => ?_⟩
    rcases hcodes d hd with hd | rfl
    · exact hd
    · exact absurd (by simpa using hd) hfeed

theorem spoken_text (hindent : column < indent) {s : ByteString} (h : showsIndentation s = true) :
    Spoken column 0 (endLine (" " ++ textOf step indent s)).toList (textKinds s) := by
  unfold showsIndentation at h
  unfold textOf textKinds
  cases hs : Text.ofUtf8? s.bytes with
  | some text =>
    rw [hs] at h
    have hfits : (textForm text).Fits text.toList := fits_textForm fun hform => by
      simpa [hform] using h
    rw [toList_endLine_append _ (toList_textIn_ne_nil step indent hfits)]
    exact spoken_textIn step hindent hfits
  | none =>
    have hne : s.bytes ≠ [] := by
      intro hnil
      rw [hnil] at hs
      nomatch hs
    have hfits := fits_wrap hne
    generalize hform : (if (wrap 70 (Text.toBase64 s.bytes)).contains '\n' then TextForm.literal
      else .plain) = form at hfits
    have hstyle : form.style =
        if (wrap 70 (Text.toBase64 s.bytes)).contains '\n' then ScalarStyle.block else .plain := by
      rw [← hform]
      split <;> rfl
    rw [← String.toList_ofList (l := wrap 70 (Text.toBase64 s.bytes))] at hfits
    have hname : "binary".toList.all Char.isAlpha = true := by decide
    have hspoken := (spoken_textIn step hindent hfits).tagged (by decide : "binary".toList ≠ [])
      (List.all_eq_true.mp hname)
    simp only [hform]
    rw [← String.append_assoc, toList_endLine_append _ (toList_textIn_ne_nil step indent hfits),
      ← hstyle]
    exact hspoken

end ClassAudit.Yaml
