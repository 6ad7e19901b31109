import ClassAudit.Proofs.Yaml.Scalar.Block
import ClassAudit.Proofs.Yaml.Stream
import ClassAudit.Proofs.Yaml.Token

/-! # The tokens of scalars

    What the stream emits at a scalar that is the value of a field, in each of the forms in which
    texts are written. A scalar ends with its line, and the next token stands to the left of what
    is inside the field.
-/

namespace ClassAudit.Yaml.TokenStream

variable {column n c : Nat} {columns : List Nat} {next : List Char} {s : TokenStream}
variable {d : Char} {cs name rest : List Char}

theorem startsToken_head (h : startsToken next = true) :
    next.head?.any (fun c => isBlank c || isBreak c) = false := by
  cases next with
  | nil => rfl
  | cons c cs =>
    obtain ⟨hblank, hbreak, -⟩ := startsToken_cons h
    simp [hblank, hbreak]

theorem noComment_of_startsToken (h : startsToken next = true) : noComment next = true := by
  cases next with
  | nil => rfl
  | cons c cs =>
    obtain ⟨hblank, -, hsign⟩ := startsToken_cons h
    simp [noComment, hblank, hsign]

theorem saveKey_of_not_allowed (h : s.keyAllowed = false) : s.saveKey = .ok s := by
  rw [saveKey, if_neg (by rw [h]; exact Bool.false_ne_true)]

theorem le_inside (h : c < column) : ∀ m ∈ (c :: columns).head?, m ≤ column := by
  rintro m ⟨⟩
  exact Nat.le_of_lt h

theorem emits_token {kind : TokenKind} {allowed : Bool} (hcolumn : ∀ m ∈ columns.head?, m ≤ column)
    (hzero : column ≠ 0) (hnext : noComment next = true)
    (hstep : ∀ (s : TokenStream) (index line : Nat), s.Quiet columns → s.keyAllowed = false →
      s.place.Shows ⟨d :: cs, index, line, column⟩ →
      ∃ p index' line', p.Shows ⟨next, index', line', n⟩ ∧ s.contentToken d cs = .ok { s with
        place := p, keyAllowed := allowed, queue := s.queue ++ [s.token kind] }) :
    Emits (before false column (d :: cs) columns) [kind] (between allowed n next columns) := by
  refine emits_content hcolumn (fun h => absurd h hzero)
    (fun s p hs hview => between_holds_place hs hview) ?_
  intro s index line hquiet hallowed hshows
  obtain ⟨p, index', line', hnext', hcontent⟩ := hstep s index line hquiet hallowed hshows
  have hquiet' := hquiet.update p allowed (s.queue ++ [s.token kind])
  exact ⟨_, _, hcontent, ⟨hquiet', rfl, _, _, hnext'⟩, hquiet.settled_append hquiet' rfl, by simp,
    hnext', hnext⟩

/-! ### Plain scalars -/

theorem endsWord_append_lineFeed (cs rest : List Char) :
    endsWord (cs ++ '\n' :: rest) = endsWord cs := by
  cases cs <;> rfl

/-- A text that may be plain starts with none of the signs, and with a mark only inside a word. -/
theorem start_of_plainAllowed (h : plainAllowed (d :: cs) = true) :
    (∀ e ∈ "#,[]\x7b\x7d&*!|>'\"%@`".toList, d ≠ e) ∧
      (d = '-' ∨ d = '?' ∨ d = ':' → endsWord cs = false) := by
  have hvalue := (PlainFrom.of_plainAllowed (List.cons_ne_nil d cs) h).noValue
  rw [hasValueMark, Bool.or_eq_false_iff] at hvalue
  have hindicator : startsWithIndicator (d :: cs) = false := by
    simp only [plainAllowed, Bool.and_eq_true, Bool.not_eq_true'] at h
    exact h.1.1.1.1.1
  simp only [startsWithIndicator, Bool.or_eq_false_iff] at hindicator
  obtain ⟨-, hsigns, hmarks⟩ := hindicator
  constructor
  · rintro e he rfl
    rw [List.contains_eq_mem, decide_eq_false_iff_not] at hsigns
    exact hsigns he
  · rintro (rfl | rfl | rfl)
    · simpa using hmarks
    · simpa using hmarks
    · simpa using hvalue.1

theorem startsPlain_of_plainAllowed (h : plainAllowed (d :: cs) = true) (rest : List Char) :
    startsPlain false d (cs ++ '\n' :: rest) = true := by
  have hplain := PlainFrom.of_plainAllowed (List.cons_ne_nil d cs) h
  obtain ⟨hne, hmark⟩ := start_of_plainAllowed h
  by_cases hsign : d = '-' ∨ d = '?' ∨ d = ':'
  · -- Behind a mark a word goes on.
    have hword := hmark hsign
    obtain _ | ⟨e, es⟩ := cs
    · nomatch hword
    rcases hsign with rfl | rfl | rfl <;>
      simp [startsPlain, endsWord, Bool.or_eq_false_iff.mp hword]
  · have hspace : d ≠ ' ' := fun heq => hplain.noBlank (by rw [heq]; rfl)
    obtain ⟨hbreak, htab⟩ := hplain.chars d List.mem_cons_self
    -- All signs but the marks are among those that such a text does not start with.
    have hcheck : ("-?:,[]\x7b\x7d#&*!|>'\"%@`".toList.all fun e => decide ((e = '-' ∨ e = '?' ∨
        e = ':') ∨ e ∈ "#,[]\x7b\x7d&*!|>'\"%@`".toList)) = true := by decide
    have hall : ∀ e ∈ "-?:,[]\x7b\x7d#&*!|>'\"%@`".toList, (e = '-' ∨ e = '?' ∨ e = ':') ∨
        e ∈ "#,[]\x7b\x7d&*!|>'\"%@`".toList := fun e he =>
      of_decide_eq_true (List.all_eq_true.mp hcheck e he)
    have hmem : "-?:,[]\x7b\x7d#&*!|>'\"%@`".toList.contains d = false := by
      rw [List.contains_eq_mem, decide_eq_false_iff_not]
      intro hmem
      rcases hall d hmem with hd | hd
      · exact hsign hd
      · exact hne d hd rfl
    rw [startsPlain, hbreak, hmem]
    simp [isBlank, hspace, htab]

/-- A text that may be plain starts a plain scalar. -/
theorem contentToken_plain (h : plainAllowed (d :: cs) = true) (hlevel : s.level = 0)
    (rest : List Char) : s.contentToken d (cs ++ '\n' :: rest) = s.plainToken := by
  have hflow : s.inFlow = false := by simp [inFlow, hlevel]
  have hstarts := startsPlain_of_plainAllowed h rest
  obtain ⟨hne, hmark⟩ := start_of_plainAllowed h
  have hnot : ∀ e, e = '-' ∨ e = '?' ∨ e = ':' →
      (d == e && endsWord (cs ++ '\n' :: rest)) = false := by
    intro e he
    rw [endsWord_append_lineFeed, Bool.and_eq_false_imp]
    intro heq
    exact hmark (eq_of_beq heq ▸ he)
  unfold contentToken
  split
  all_goals first
    | exact absurd rfl (hne _ (by decide))
    | simp [hflow, hnot, hne '|' (by decide), hne '>' (by decide), hstarts]

theorem emits_plain (hne : cs ≠ []) (hplain : plainAllowed cs = true) (hcolumn : c < column)
    (hn : n ≤ c) (hnext : startsToken next = true) :
    Emits (before false column (cs ++ '\n' :: (List.replicate n ' ' ++ next)) (c :: columns))
      [.scalar (String.ofList cs) .plain] (between true n next (c :: columns)) := by
  obtain ⟨d, cs, rfl⟩ := List.exists_cons_of_ne_nil hne
  refine emits_token (le_inside hcolumn) (by omega) (noComment_of_startsToken hnext)
    fun s index line hquiet hallowed hshows => ?_
  have hflow : s.inFlow = false := by simp [inFlow, hquiet.level]
  obtain ⟨hind, -⟩ := hquiet.outer_eq
  obtain ⟨p, index', hread, hshows'⟩ := readPlain_eq hshows
    (PlainFrom.of_plainAllowed hne hplain) (by omega)
    (show s.indentation + 1 ≤ column by omega) (by omega) (startsToken_head hnext)
  refine ⟨p, _, _, hshows', ?_⟩
  have hcontent := contentToken_plain hplain hquiet.level (List.replicate n ' ' ++ next)
  refine hcontent.trans ?_
  rw [plainToken, saveKey_of_not_allowed hallowed]
  simp only [bind, Except.bind, hflow, hread]
  rfl

/-- Whether a text is one word that can be read only as a plain scalar. -/
def isPlainWord (cs : List Char) : Bool :=
  cs.head?.any isNameChar && cs.getLast? != some ':' &&
    cs.all fun c => !(isBlank c || isBreak c || isSpecial c)

theorem isPlainWord_iff :
    isPlainWord (d :: cs) = true ↔ isNameChar d = true ∧ (d :: cs).getLast? ≠ some ':' ∧
      ∀ c ∈ d :: cs, isBlank c = false ∧ isBreak c = false ∧ isSpecial c = false := by
  simp [isPlainWord, and_assoc]

theorem exists_cons_of_isPlainWord (h : isPlainWord cs = true) : ∃ d rest, cs = d :: rest := by
  cases cs with
  | nil => nomatch h
  | cons d rest => exact ⟨d, rest, rfl⟩

theorem startsToken_of_isNameChar (h : isNameChar d = true) (cs : List Char) :
    startsToken (d :: cs) = true := by
  have hsign : d ≠ '#' := ne_of_isNameChar h rfl
  simp [startsToken, isBlank_of_isNameChar h, isBreak_of_isNameChar h, hsign]

theorem startsToken_of_isPlainWord (h : isPlainWord cs = true) : startsToken cs = true := by
  obtain ⟨d, cs, rfl⟩ := exists_cons_of_isPlainWord h
  exact startsToken_of_isNameChar (isPlainWord_iff.mp h).1 cs

/-- A word at the end of the text. -/
theorem emits_lastWord (h : isPlainWord cs = true) (hcolumn : c < column) :
    Emits (before false column cs (c :: columns)) [.scalar (String.ofList cs) .plain]
      (between false (column + cs.length) [] (c :: columns)) := by
  obtain ⟨d, cs, rfl⟩ := exists_cons_of_isPlainWord h
  obtain ⟨hd, hlast, hchars⟩ := isPlainWord_iff.mp h
  refine emits_token (le_inside hcolumn) (by omega) rfl
    fun s index line hquiet hallowed hshows => ?_
  have hflow : s.inFlow = false := by simp [inFlow, hquiet.level]
  obtain ⟨p, hread, hshows'⟩ := readPlain_last (s.indentation + 1) hshows hd
    (fun e he => ⟨(hchars e he).1, (hchars e he).2.1⟩) hlast
  refine ⟨p, _, _, hshows', ?_⟩
  rw [contentToken_name hd, plainToken, saveKey_of_not_allowed hallowed]
  simp only [bind, Except.bind, hflow, hread]
  rfl

/-! ### Quoted scalars -/

/-- Somewhere on a line, between two tokens. -/
def anywhere (allowed : Bool) (rest : List Char) (columns : List Nat) : Phase where
  holds s := ∃ column, (between allowed column rest columns).holds s
  free := by
    intro s hs hsettled
    obtain ⟨column, hs⟩ := hs
    exact (between allowed column rest columns).free hs hsettled
  take := by
    intro s hs hsettled
    obtain ⟨column, hs⟩ := hs
    exact ⟨column, (between allowed column rest columns).take hs hsettled⟩

theorem anywhere_within_before_below {allowed : Bool} (n : Nat) (hnext : startsToken next = true) :
    Within (anywhere allowed ('\n' :: (List.replicate n ' ' ++ next)) columns)
      (before true n next columns) := by
  intro s hs
  obtain ⟨column, hs⟩ := hs
  exact between_within_before_below _ _ n rfl hnext s hs

theorem contentToken_quote (double : Bool) (cs : List Char) :
    s.contentToken (quoteOf double) cs = s.quotedToken double := by
  cases double <;> rfl

theorem emits_quoted {double : Bool} {code : Char → List Char} {text written : List Char}
    (h : Inside double code text written) (rest : List Char)
    (hcolumn : ∀ m ∈ columns.head?, m ≤ column)
    (hzero : column ≠ 0) :
    Emits (before false column (quoteOf double :: (written ++ quoteOf double :: '\n' :: rest)) columns)
      [.scalar (String.ofList text) .quoted] (anywhere false ('\n' :: rest) columns) := by
  refine emits_content hcolumn (fun h => absurd h hzero) ?_ ?_
  · intro s p hs hview
    obtain ⟨column, hs⟩ := hs
    exact ⟨column, between_holds_place hs hview⟩
  intro s index line hquiet hallowed hshows
  obtain ⟨p, index', line', column', hread, hshows'⟩ :=
    readQuoted_eq h (by simp) (Place.Shows.next hshows) (by omega)
  have hquiet' := hquiet.update p false (s.queue ++ [s.token (.scalar (String.ofList text) .quoted)])
  refine ⟨_, _, ?_, ⟨column', hquiet', rfl, _, _, hshows'⟩, hquiet.settled_append hquiet' rfl,
    by simp, hshows', rfl⟩
  rw [contentToken_quote, quotedToken, saveKey_of_not_allowed hallowed]
  simp only [bind, Except.bind, hread]
  rfl

/-! ### Literal blocks -/

theorem emits_literal {chomping : Chomping} {text : List Char} (h : LiteralText chomping text)
    (hblank : text.head?.any isBlank = false) {indent : Nat} (hindent : c < indent)
    (hcolumn : c < column) (hn : n ≤ c) (hnext : startsToken next = true) :
    Emits (before false column ('|' :: (chomping.sign ++ '\n' :: (literalLines indent true text ++
        (chomping.ending ++ (List.replicate n ' ' ++ next))))) (c :: columns))
      [.scalar (String.ofList text) .block] (between true n next (c :: columns)) := by
  refine emits_token (le_inside hcolumn) (by omega) (noComment_of_startsToken hnext)
    fun s index line hquiet hallowed hshows => ?_
  have hflow : s.inFlow = false := by simp [inFlow, hquiet.level]
  obtain ⟨hind, -⟩ := hquiet.outer_eq
  obtain ⟨p, index', line', hread, hshows'⟩ := readBlock_eq
    (show s.indentation < indent by omega) (by omega) h hblank (by omega) (startsToken_head hnext)
    (Place.Shows.next hshows)
  refine ⟨p, _, _, hshows', ?_⟩
  have hcontent : ∀ cs, s.contentToken '|' cs = s.blockToken true := by
    intro cs
    simp [contentToken, hflow]
  rw [hcontent, blockToken, hquiet.dropKey]
  simp only [bind, Except.bind, hread]
  rfl

/-! ### Tags -/

/-- The text of a tag of letters. -/
theorem readTagText_eq (hname : ∀ c ∈ name, c.isAlpha = true) {p : Place} {index line column : Nat}
    (h : p.Shows ⟨name ++ ' ' :: rest, index, line, column⟩) :
    ∃ p', readTagText [] p = .ok (name, p') ∧
      p'.Shows ⟨' ' :: rest, index + name.length, line, column + name.length⟩ := by
  have hgo : ∀ fuel done, name.length < fuel → ∃ p',
      readTagText.go fuel done p = .ok (done.reverse ++ name, p') ∧
      p'.Shows ⟨' ' :: rest, index + name.length, line, column + name.length⟩ := by
    intro fuel done hfuel
    induction name generalizing p index column fuel done with
    | nil =>
      obtain _ | fuel := fuel
      · omega
      obtain ⟨p', hneed, hshows⟩ := h.need 1
      have hrest : p'.rest = ' ' :: rest := hshows.rest
      refine ⟨p', ?_, hshows⟩
      rw [readTagText.go, hneed]
      simp only [bind, Except.bind, hrest]
      simp [isTagChar, isWordChar, Char.isAlphanum, pure, Except.pure]
    | cons c name ih =>
      obtain _ | fuel := fuel
      · omega
      obtain ⟨hc, hname⟩ := List.forall_mem_cons.mp hname
      obtain ⟨p', hneed, hshows⟩ := h.need 1
      have hrest : p'.rest = c :: (name ++ ' ' :: rest) := hshows.rest
      have htag : isTagChar c = true := by simp [isTagChar, isWordChar, Char.isAlphanum, hc]
      obtain ⟨p'', hgo, hshows'⟩ := ih hname (Place.Shows.next hshows) fuel (c :: done)
        (by simpa using hfuel)
      refine ⟨p'', ?_, ?_⟩
      · rw [readTagText.go, hneed]
        simp only [bind, Except.bind, hrest]
        split
        · next heq =>
          obtain rfl : c = '%' := (List.cons.inj heq).1
          nomatch hc
        · next heq =>
          obtain ⟨rfl, -⟩ := List.cons.inj heq
          rw [if_pos htag, hgo, List.reverse_cons, List.append_assoc]
          rfl
        · next heq => nomatch heq
      · rwa [Nat.add_assoc, Nat.add_comm 1, Nat.add_assoc, Nat.add_comm 1] at hshows'
  refine hgo (p.left + 1) [] ?_
  rw [h.left, List.length_append]
  omega

theorem readTag_eq (hne : name ≠ []) (hname : ∀ c ∈ name, c.isAlpha = true) {p : Place}
    {index line column : Nat}
    (h : p.Shows ⟨'!' :: '!' :: (name ++ ' ' :: rest), index, line, column⟩) :
    ∃ p' index', readTag p = .ok (("!!", String.ofList name), p') ∧
      p'.Shows ⟨' ' :: rest, index', line, column + 2 + name.length⟩ := by
  obtain ⟨p₁, hneed₁, hshows₁⟩ := h.need 2
  have hrest₁ : p₁.rest = '!' :: '!' :: (name ++ ' ' :: rest) := hshows₁.rest
  obtain ⟨p₂, hspan, hshows₂⟩ := Place.Shows.span isWordChar []
    (Place.Shows.next hshows₁) (List.forall_mem_nil _) rfl
  have hrest₂ : p₂.rest = '!' :: (name ++ ' ' :: rest) := hshows₂.rest
  obtain ⟨p₃, htext, hshows₃⟩ := readTagText_eq hname (Place.Shows.next hshows₂)
  obtain ⟨p₄, hneed₄, hshows₄⟩ := hshows₃.need 1
  have hrest₄ : p₄.rest = ' ' :: rest := hshows₄.rest
  have hnonempty : name.isEmpty = false := by simpa using hne
  have hhandle : readTagHandle p₁ = .ok ((['!', '!'], true), p₂.next) := by
    rw [readTagHandle, hspan]
    simp only [bind, Except.bind, hrest₂]
    rfl
  have htext' : readTagText1 p₂.next = .ok (name, p₃) := by
    rw [readTagText1, htext]
    simp [bind, Except.bind, hnonempty, pure, Except.pure]
  refine ⟨p₄, _, ?_, hshows₄⟩
  rw [readTag, hneed₁]
  simp only [bind, Except.bind, hrest₁]
  simp only [hhandle, if_true, htext', pure, Except.pure, hneed₄, hrest₄]
  rfl

theorem emits_tag (hne : name ≠ []) (hname : ∀ c ∈ name, c.isAlpha = true)
    (hrest : noComment (' ' :: rest) = true) (hcolumn : ∀ m ∈ columns.head?, m ≤ column)
    (hzero : column ≠ 0) :
    Emits (before false column ('!' :: '!' :: (name ++ ' ' :: rest)) columns)
      [.tag "!!" (String.ofList name)]
      (between false (column + 2 + name.length) (' ' :: rest) columns) := by
  refine emits_token hcolumn hzero hrest fun s index line hquiet hallowed hshows => ?_
  obtain ⟨p, index', hread, hshows'⟩ := readTag_eq hne hname hshows
  refine ⟨p, _, _, hshows', ?_⟩
  show s.tagToken = _
  rw [tagToken, saveKey_of_not_allowed hallowed]
  simp only [bind, Except.bind, hread]
  rfl

end ClassAudit.Yaml.TokenStream
