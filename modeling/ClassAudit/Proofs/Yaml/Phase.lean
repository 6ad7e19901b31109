import ClassAudit.Proofs.Yaml.Place
import ClassAudit.Yaml.Token.Stream

/-! # Phases of a stream

    A stream finds tokens ahead of those that are taken, and may put a token in front of the last
    one found. A step emits the tokens that nothing can come in front of any more, so that what it
    emits does not depend on how far ahead the stream is.

    * A phase is a condition on the state of a stream that taking a settled token keeps.
    * `Emits` says what one step from a phase emits, and the phase that it leads to.
    * `between` is the phase between two tokens, `before` the one in front of a token that may
      stand on a later line.
-/

namespace ClassAudit.Yaml.TokenStream

variable {s : TokenStream} {columns : List Nat} {c : Char} {cs : List Char} {p : Place}
  {index line : Nat}

/-! ### Phases -/

/-- The kinds of the tokens that have been found and that nothing can come in front of. The last
    token is none of them if it may still be a key. -/
def settled (s : TokenStream) : List TokenKind :=
  if s.candidate.possible then s.queue.dropLast.map Token.kind else s.queue.map Token.kind

theorem settled_of_possible (h : s.candidate.possible = true) :
    s.settled = s.queue.dropLast.map Token.kind :=
  if_pos h

theorem settled_of_not_possible (h : s.candidate.possible = false) :
    s.settled = s.queue.map Token.kind :=
  if_neg (by rw [h]; exact Bool.false_ne_true)

theorem length_queue_le (s : TokenStream) : s.queue.length ≤ s.settled.length + 1 := by
  unfold settled
  split
  · rw [List.length_map, List.length_dropLast]
    omega
  · rw [List.length_map]
    omega

theorem settled_take (s : TokenStream) : s.take.settled = s.settled.tail := by
  show (if s.candidate.possible then s.queue.tail.dropLast.map Token.kind
    else s.queue.tail.map Token.kind) = s.settled.tail
  unfold settled
  split
  · rw [← List.map_tail, List.tail_dropLast]
  · rw [List.map_tail]

/-- A condition on the state of a stream, under which a settled token can be taken. -/
structure Phase where
  holds : TokenStream → Prop
  /-- The token at the head waits for nothing. -/
  free : ∀ {s}, holds s → s.settled ≠ [] → s.waiting.lookup s.taken = none
  take : ∀ {s}, holds s → s.settled ≠ [] → holds s.take

/-! ### Steps -/

/-- A step from a phase emits some tokens and leads to another phase. -/
def Emits (P : Phase) (kinds : List TokenKind) (Q : Phase) : Prop :=
  ∀ s, P.holds s → ∃ s', s.fetch = .ok s' ∧ Q.holds s' ∧ s'.settled = s.settled ++ kinds ∧
    s.queue.length < s'.queue.length

/-- The first phase is a case of the second. -/
def Within (P Q : Phase) : Prop :=
  ∀ s, P.holds s → Q.holds s

/-- The next step from the first phase is that from the second one, after some tokens. -/
def Opens (P : Phase) (kinds : List TokenKind) (Q : Phase) : Prop :=
  ∀ s, P.holds s → ∃ s₀, Q.holds s₀ ∧ s.fetch = s₀.fetch ∧ s₀.settled = s.settled ++ kinds ∧
    s.queue.length ≤ s₀.queue.length

variable {Q : Phase}

theorem Within.opens {P : Phase} (h : Within P Q) : Opens P [] Q :=
  fun s hs => ⟨s, h s hs, rfl, (List.append_nil _).symm, Nat.le_refl _⟩

theorem Opens.emits {P R : Phase} {before kinds : List TokenKind} (h : Opens P before Q)
    (hQ : Emits Q kinds R) : Emits P (before ++ kinds) R := by
  intro s hs
  obtain ⟨s₀, hs₀, hfetch, hbefore, hlength⟩ := h s hs
  obtain ⟨s', hfetch', hs', hkinds, hlength'⟩ := hQ s₀ hs₀
  refine ⟨s', hfetch.trans hfetch', hs', ?_, by omega⟩
  rw [hkinds, hbefore, List.append_assoc]

/-! ### States without a candidate -/

/-- The columns of the open block collections are `columns`, from the inside, and no token waits. -/
structure Quiet (s : TokenStream) (columns : List Nat) : Prop where
  indentation : s.indentation :: s.outer = columns.map (fun c : Nat => (c : Int)) ++ [-1]
  level : s.level = 0
  candidate : s.candidate.possible = false
  brackets : s.brackets = []
  waiting : s.waiting = []

/-- Neither the place nor the queue matters. -/
theorem Quiet.update (h : s.Quiet columns) (p : Place) (allowed : Bool) (queue : List Token) :
    ({ s with place := p, keyAllowed := allowed, queue := queue } : TokenStream).Quiet columns :=
  ⟨h.indentation, h.level, h.candidate, h.brackets, h.waiting⟩

theorem Quiet.settled_append {s' : TokenStream} {columns' : List Nat} (h : s.Quiet columns)
    (h' : s'.Quiet columns') {tokens : List Token} (hqueue : s'.queue = s.queue ++ tokens) :
    s'.settled = s.settled ++ tokens.map Token.kind := by
  rw [settled_of_not_possible h.candidate, settled_of_not_possible h'.candidate, hqueue,
    List.map_append]

theorem Quiet.take (h : s.Quiet columns) : s.take.Quiet columns := by
  refine ⟨h.indentation, h.level, h.candidate, h.brackets, ?_⟩
  show s.waiting.filter _ = []
  rw [h.waiting]
  rfl

/-- Between two tokens: some characters come next, from a column on, and the last token tells
    whether a key may start. -/
def between (allowed : Bool) (column : Nat) (rest : List Char) (columns : List Nat) : Phase where
  holds s := s.Quiet columns ∧ s.keyAllowed = allowed ∧
    ∃ index line, s.place.Shows ⟨rest, index, line, column⟩
  free := by
    intro s hs _
    rw [hs.1.waiting]
    rfl
  take := by
    intro s hs _
    exact ⟨hs.1.take, hs.2⟩

/-! ### Going to the next token -/

/-- Whether the next token starts right here, or the text ends. -/
def startsToken : List Char → Bool
  | [] => true
  | c :: _ => !(isBlank c || isBreak c || c == '#')

theorem startsToken_cons (h : startsToken (c :: cs) = true) :
    isBlank c = false ∧ isBreak c = false ∧ c ≠ '#' := by
  simpa [startsToken, and_assoc] using h

/-- The place behind the spaces at a place, where it is not the end of a line. Whether tabs count as
    spaces does not matter. -/
theorem skipToToken_go_here {n column : Nat} {body : List Char}
    (h : p.Shows ⟨List.replicate n ' ' ++ body, index, line, column⟩)
    (hbody : startsToken body = true) (tabs : Bool) :
    ∃ p', p'.Shows ⟨body, index + n, line, column + n⟩ ∧
      ∀ (s : TokenStream) (fuel : Nat), s.place = p → (s.inFlow || !s.keyAllowed) = tabs →
        skipToToken.go (fuel + 1) s = .ok { s with place := p' } := by
  obtain ⟨p₁, hneed, hshows₁⟩ := h.need 1
  have hspaces : ∀ c ∈ List.replicate n ' ', (c == ' ' || (tabs && c == '\t')) = true := by
    intro c hc
    rw [List.eq_of_mem_replicate hc]
    rfl
  have hstop : body.head?.any (fun c => c == ' ' || (tabs && c == '\t')) = false := by
    cases body with
    | nil => rfl
    | cons c cs =>
      obtain ⟨hblank, -, -⟩ := startsToken_cons hbody
      have hc : c ≠ ' ' ∧ c ≠ '\t' := by simpa [isBlank] using hblank
      simp [hc.1, hc.2]
  obtain ⟨p₂, hspan, hshows₂⟩ := hshows₁.span _ _ hspaces hstop
  rw [List.length_replicate] at hshows₂
  have hrest : p₂.rest = body := hshows₂.rest
  refine ⟨p₂, hshows₂, ?_⟩
  intro s fuel hplace htabs
  rw [skipToToken.go, hplace, hneed]
  simp only [bind, Except.bind, hshows₁.unmarked, Bool.and_false, Bool.false_eq_true, if_false,
    htabs, hspan, hrest]
  cases body with
  | nil => simp [hrest, pure, Except.pure]
  | cons c cs =>
    obtain ⟨-, hbreak, hcomment⟩ := startsToken_cons hbody
    simp [hrest, hcomment, endsLine, hbreak, pure, Except.pure]

theorem skipToToken_go_below {n column : Nat} {body : List Char}
    (h : p.Shows ⟨c :: (List.replicate n ' ' ++ body), index, line, column⟩)
    (hc : isPlainBreak c = true) (hbody : startsToken body = true) (tabs : Bool) :
    ∃ p', p'.Shows ⟨body, index + 1 + n, line + 1, n⟩ ∧
      ∀ (s : TokenStream) (fuel : Nat), s.place = p → s.level = 0 →
        (s.inFlow || !s.keyAllowed) = tabs →
        skipToToken.go (fuel + 2) s = .ok { s with place := p', keyAllowed := true } := by
  obtain ⟨p₁, hneed, hshows₁⟩ := h.need 1
  have hstop : (c :: (List.replicate n ' ' ++ body)).head?.any
      (fun c => c == ' ' || (tabs && c == '\t')) = false := by
    rcases isPlainBreak_iff.mp hc with rfl | rfl | rfl <;> simp
  obtain ⟨p₂, hspan, hshows₂⟩ := Place.Shows.span _ [] hshows₁ (by simp) hstop
  have hrest : p₂.rest = c :: (List.replicate n ' ' ++ body) := hshows₂.rest
  obtain ⟨p₃, hbreak, hshows₃⟩ := hshows₂.skipBreak hc
  have hcomment : ((c :: (List.replicate n ' ' ++ body)).head? == some '#') = false := by
    rcases isPlainBreak_iff.mp hc with rfl | rfl | rfl <;> rfl
  obtain ⟨p', hshows', hgo⟩ := skipToToken_go_here hshows₃ hbody false
  refine ⟨p', by simpa using hshows', ?_⟩
  intro s fuel hplace hlevel htabs
  have hflow : s.inFlow = false := by simp [inFlow, hlevel]
  have hnext : skipToToken.go (fuel + 1) { s with place := p₃, keyAllowed := true } =
      .ok { s with place := p', keyAllowed := true } := by
    refine hgo { s with place := p₃, keyAllowed := true } fuel rfl ?_
    show (s.inFlow || !true) = false
    rw [hflow]
    rfl
  rw [skipToToken.go, hplace, hneed]
  simp only [bind, Except.bind, hshows₁.unmarked, Bool.and_false, Bool.false_eq_true, if_false,
    htabs, hspan, hrest, hcomment, pure, Except.pure, hbreak]
  simp only [hflow, Bool.not_false, Bool.or_true, hnext]
  simp [endsLine, isBreak_of_isPlainBreak hc]

/-- A stream at a place comes to a token at another place. -/
def Arrives (p : Place) (allowed : Bool) (p' : Place) (allowed' : Bool) : Prop :=
  ∀ s : TokenStream, s.place = p → s.keyAllowed = allowed → s.level = 0 →
    s.skipToToken = .ok { s with place := p', keyAllowed := allowed' }

/-- In front of a token, or of the end of the text: `body` comes next, from a column on, when white
    space has been skipped, and `allowed` tells whether a key may start there. -/
def before (allowed : Bool) (column : Nat) (body : List Char) (columns : List Nat) : Phase where
  holds s := s.Quiet columns ∧ ∃ p index line,
    Arrives s.place s.keyAllowed p allowed ∧ p.Shows ⟨body, index, line, column⟩
  free := by
    intro s hs _
    rw [hs.1.waiting]
    rfl
  take := by
    intro s hs _
    exact ⟨hs.1.take, hs.2⟩

variable {allowed : Bool} {column : Nat} {body : List Char} {columns : List Nat}

/-- A token on the same line. -/
theorem between_within_before (allowed : Bool) (column n : Nat) (hbody : startsToken body = true) :
    Within (between allowed column (List.replicate n ' ' ++ body) columns)
      (before allowed (column + n) body columns) := by
  intro s hs
  obtain ⟨hquiet, hallowed, index, line, hshows⟩ := hs
  obtain ⟨p, hafter, hgo⟩ := skipToToken_go_here hshows hbody (!allowed)
  refine ⟨hquiet, p, _, _, ?_, hafter⟩
  intro t hplace hkey hlevel
  rw [hallowed] at hkey
  rw [skipToToken, hgo t _ hplace (by simp [inFlow, hlevel, hkey]), ← hkey]

theorem between_within_before_below (allowed : Bool) (column n : Nat) (hc : isPlainBreak c = true)
    (hbody : startsToken body = true) :
    Within (between allowed column (c :: (List.replicate n ' ' ++ body)) columns)
      (before true n body columns) := by
  intro s hs
  obtain ⟨hquiet, hallowed, index, line, hshows⟩ := hs
  obtain ⟨p, hafter, hgo⟩ := skipToToken_go_below hshows hc hbody (!allowed)
  refine ⟨hquiet, p, _, _, ?_, hafter⟩
  intro t hplace hkey hlevel
  rw [hallowed] at hkey
  have hleft : ∃ fuel, t.place.left + 1 = fuel + 2 := by
    rw [hplace, hshows.left]
    exact ⟨_, rfl⟩
  obtain ⟨fuel, hfuel⟩ := hleft
  rw [skipToToken, hfuel, hgo t _ hplace hlevel (by simp [inFlow, hlevel, hkey])]

/-! ### Closing block collections -/

/-- The stream when the innermost block collection has been closed. -/
def closed (s : TokenStream) (line : Nat) : TokenStream :=
  { s.push ⟨.blockEnd, line + 1⟩ with
    indentation := s.outer.headD (-1), outer := s.outer.tail }

/-- A token that stands to the right of the innermost block collection closes none. -/
theorem unroll_of_le (line : Nat)
    (hind : s.indentation :: s.outer = columns.map (fun c : Nat => (c : Int)) ++ [-1])
    (hlevel : s.level = 0) {n : Int} (hn : ∀ c ∈ columns.head?, (c : Int) ≤ n) :
    s.unroll line n = s := by
  have hflow : s.inFlow = false := by simp [inFlow, hlevel]
  rw [unroll, hflow, if_neg Bool.false_ne_true]
  cases houter : s.outer with
  | nil => rw [unroll.go]
  | cons o outer =>
    have hle : ¬ n < s.indentation := by
      cases columns with
      | nil =>
        rw [(List.cons.inj hind).2] at houter
        nomatch houter
      | cons c columns =>
        have heq : s.indentation = c := (List.cons.inj hind).1
        have := hn c rfl
        omega
    rw [unroll.go, if_neg hle]

namespace Quiet

variable {s : TokenStream} {c : Nat}

theorem outer_eq (h : s.Quiet (c :: columns)) :
    s.indentation = c ∧ s.outer = columns.map (fun c : Nat => (c : Int)) ++ [-1] :=
  List.cons.inj h.indentation

theorem closed (h : s.Quiet (c :: columns)) (line : Nat) : (s.closed line).Quiet columns := by
  obtain ⟨-, houter⟩ := h.outer_eq
  refine ⟨?_, h.level, h.candidate, h.brackets, h.waiting⟩
  show s.outer.headD (-1) :: s.outer.tail = _
  rw [houter]
  cases columns <;> rfl

theorem settled_closed (h : s.Quiet (c :: columns)) (line : Nat) :
    (s.closed line).settled = s.settled ++ [.blockEnd] :=
  h.settled_append (h.closed line) rfl

theorem unroll_of_lt (h : s.Quiet (c :: columns)) (line : Nat) {n : Int} (hn : n < c) :
    s.unroll line n = (s.closed line).unroll line n := by
  obtain ⟨hind, houter⟩ := h.outer_eq
  have hflow : s.inFlow = false := by simp [inFlow, h.level]
  have hflow' : (s.closed line).inFlow = false := hflow
  obtain ⟨o, outer, heq⟩ : ∃ o outer, s.outer = o :: outer := by
    rw [houter]
    cases columns <;> exact ⟨_, _, rfl⟩
  rw [TokenStream.unroll, hflow, TokenStream.unroll, hflow']
  simp only [TokenStream.closed, heq, List.headD_cons, List.tail_cons, Bool.false_eq_true, if_false]
  rw [TokenStream.unroll.go, if_pos (by rw [hind]; exact hn)]

theorem unroll_all (h : s.Quiet columns) (line : Nat) :
    (s.unroll line (-1)).Quiet [] ∧ (s.unroll line (-1)).place = s.place ∧
      (s.unroll line (-1)).settled = s.settled ++ List.replicate columns.length .blockEnd ∧
      s.queue.length ≤ (s.unroll line (-1)).queue.length := by
  induction columns generalizing s with
  | nil =>
    rw [unroll_of_le _ h.indentation h.level (by simp)]
    exact ⟨h, rfl, (List.append_nil _).symm, Nat.le_refl _⟩
  | cons c columns ih =>
    rw [h.unroll_of_lt _ (by omega)]
    obtain ⟨hquiet, hplace, hsettled, hlength⟩ := ih (h.closed line)
    refine ⟨hquiet, hplace, ?_, ?_⟩
    · rw [hsettled, h.settled_closed, List.append_assoc]
      rfl
    · have hle : s.queue.length ≤ (s.queue ++ [(⟨.blockEnd, line + 1⟩ : Token)]).length := by simp
      exact Nat.le_trans hle hlength

end Quiet

/-- A token that stands to the left of the innermost block collection closes it. -/
theorem before_opens_closed {c : Nat} (h : column < c) :
    Opens (before allowed column body (c :: columns)) [.blockEnd]
      (before allowed column body columns) := by
  intro s hs
  obtain ⟨hquiet, p, index, line, harrives, hshows⟩ := hs
  refine ⟨s.closed s.place.line, ⟨hquiet.closed _, p, index, line, harrives, hshows⟩, ?_,
    hquiet.settled_closed _, by simp [closed, push]⟩
  have hcolumn : p.column = column := hshows.column
  have hskip := harrives s rfl rfl hquiet.level
  have hskip' := harrives (s.closed s.place.line) rfl rfl hquiet.level
  have hroll := (hquiet.update p allowed s.queue).unroll_of_lt s.place.line
    (n := p.column) (by rw [hcolumn]; omega)
  rw [fetch, fetch, hskip, hskip']
  simp only [bind, Except.bind]
  rw [hroll]
  rfl

/-! ### The step at a token -/

theorem findAhead_go_blanks {v : View} (h : p.Shows v) (fuel distance : Nat) (cs : List Char)
    (hcs : cs = v.rest.drop distance) :
    ∃ found p', findAhead.go isBlank fuel distance cs p = .ok (found, p') ∧ p'.Shows v ∧
      ∀ n, found = some n → v.rest[n]? = (cs.dropWhile isBlank).head? := by
  induction fuel generalizing p distance cs with
  | zero => exact ⟨none, p, rfl, h, fun n hn => nomatch hn⟩
  | succ fuel ih =>
    obtain ⟨p', hneed, hshows⟩ := h.need (distance + 1)
    rw [findAhead.go, hneed]
    have hget : v.rest[distance]? = cs.head? := by
      rw [hcs, List.head?_drop]
    cases cs with
    | nil =>
      refine ⟨some distance, p', rfl, hshows, ?_⟩
      intro n hn
      rw [← Option.some.inj hn]
      exact hget
    | cons c cs =>
      by_cases hc : isBlank c = true
      · have hdrop : cs = v.rest.drop (distance + 1) := by
          rw [← List.tail_drop, ← hcs]
          rfl
        obtain ⟨found, p'', hgo, hshows', hfound⟩ := ih hshows (distance + 1) cs hdrop
        refine ⟨found, p'', ?_, hshows', ?_⟩
        · simp only [bind, Except.bind, hc, if_true, hgo]
        · simpa [List.dropWhile_cons, hc] using hfound
      · refine ⟨some distance, p', ?_, hshows, ?_⟩
        · simp [bind, Except.bind, hc, pure, Except.pure]
        · intro n hn
          rw [← Option.some.inj hn, hget]
          simp [hc]

/-- Whether no comment follows on the line. -/
def noComment (rest : List Char) : Bool :=
  (rest.dropWhile isBlank).head? != some '#'

/-- Where no comment follows, none is skipped. -/
theorem skipLineComment_eq {v : View} (h : s.place.Shows v) (hcomment : noComment v.rest = true) :
    ∃ p, s.skipLineComment = .ok { s with place := p } ∧ p.Shows v := by
  by_cases hfresh : s.place.fresh = true
  · exact ⟨s.place, by rw [skipLineComment, if_pos hfresh], h⟩
  · obtain ⟨found, p, hgo, hshows, hfound⟩ :=
      findAhead_go_blanks h (commentReach - 0) 0 s.place.rest (by rw [h.rest]; rfl)
    refine ⟨p, ?_, hshows⟩
    have hahead : findAhead isBlank 0 s.place = .ok (found, p) := hgo
    rw [skipLineComment, if_neg hfresh, hahead]
    simp only [bind, Except.bind]
    cases found with
    | none => rfl
    | some n =>
      have hhead := hfound n rfl
      have hne : (p.rest[n]? == some '#') = false := by
        rw [hshows.rest, hhead, h.rest]
        simpa [noComment] using hcomment
      simp only [hne, Bool.false_eq_true, if_false]
      rfl

/-- No document is bounded by a mark here, and no directive starts. -/
def Unmarked (column : Nat) (c : Char) : Prop :=
  column = 0 → c ≠ '%' ∧ c ≠ '-' ∧ c ≠ '.'

/-- The step at a token, when white space has been skipped and all block collections are closed that
    end in front of it. -/
theorem fetch_content (hskip : s.skipToToken = .ok { s with place := p, keyAllowed := allowed })
    (hshows : p.Shows ⟨c :: cs, index, line, column⟩) (hmark : Unmarked column c)
    (hroll : ({ s with place := p, keyAllowed := allowed }).unroll s.place.line column =
      { s with place := p, keyAllowed := allowed }) :
    ∃ p', p'.Shows ⟨c :: cs, index, line, column⟩ ∧
      ∀ {s' v}, ({ s with place := p', keyAllowed := allowed }).contentToken c cs = .ok s' →
        s'.place.Shows v → noComment v.rest = true →
        ∃ p'', s.fetch = .ok { s' with place := p'' } ∧ p''.Shows v := by
  obtain ⟨p', hneed, hshows'⟩ := hshows.need 4
  refine ⟨p', hshows', ?_⟩
  intro s' v hcontent hview hcomment
  have hcolumn : p.column = column := hshows.column
  have hcolumn' : p'.column = column := hshows'.column
  have hrest' : p'.rest = c :: cs := hshows'.rest
  have hdirective : (decide (p'.column = 0) && c == '%') = false := by
    rw [hcolumn']
    by_cases hzero : column = 0
    · simp [(hmark hzero).1]
    · simp [hzero]
  have hbound : p'.atDocumentMark = false := by
    rw [Place.atDocumentMark, hcolumn', hrest']
    by_cases hzero : column = 0
    · obtain ⟨-, hdash, hdot⟩ := hmark hzero
      simp [startsWord, List.isPrefixOf, Ne.symm hdash, Ne.symm hdot]
    · simp [hzero]
  rw [fetch, hskip]
  simp only [bind, Except.bind, hcolumn, hroll, hneed, hrest', hdirective, hbound,
    Bool.false_eq_true, if_false, hcontent]
  split
  · exact ⟨s'.place, rfl, hview⟩
  · exact skipLineComment_eq hview hcomment

/-- The step in front of a token, where the token closes no block collection. The phase that it
    leads to must not depend on how much of the text is known. -/
theorem emits_content {kinds : List TokenKind} (hcolumn : ∀ n ∈ columns.head?, n ≤ column)
    (hmark : Unmarked column c)
    (hview : ∀ s p, Q.holds s → (∀ v, s.place.Shows v → p.Shows v) → Q.holds { s with place := p })
    (hstep : ∀ (s : TokenStream) (index line : Nat), s.Quiet columns → s.keyAllowed = allowed →
      s.place.Shows ⟨c :: cs, index, line, column⟩ →
      ∃ s' v, s.contentToken c cs = .ok s' ∧ Q.holds s' ∧ s'.settled = s.settled ++ kinds ∧
        s.queue.length < s'.queue.length ∧ s'.place.Shows v ∧ noComment v.rest = true) :
    Emits (before allowed column (c :: cs) columns) kinds Q := by
  intro s hs
  obtain ⟨hquiet, p, index, line, harrives, hshows⟩ := hs
  have hquiet' := fun q => hquiet.update q allowed s.queue
  have hroll := unroll_of_le s.place.line (hquiet' p).indentation (hquiet' p).level
    (n := column) (fun n hn => by have := hcolumn n hn; omega)
  obtain ⟨p', hshows', hfetch⟩ :=
    fetch_content (harrives s rfl rfl hquiet.level) hshows hmark hroll
  obtain ⟨s', v, hcontent, hholds, hsettled, hlength, hv, hcomment⟩ :=
    hstep { s with place := p', keyAllowed := allowed } index line (hquiet' p') rfl hshows'
  obtain ⟨p'', hfetch', hv'⟩ := hfetch hcontent hv hcomment
  refine ⟨{ s' with place := p'' }, hfetch', hview s' p'' hholds ?_, hsettled, hlength⟩
  intro w hw
  have hvw : v = w := by
    obtain ⟨vrest, vindex, vline, vcolumn⟩ := v
    obtain ⟨wrest, windex, wline, wcolumn⟩ := w
    obtain rfl : vrest = wrest := hv.rest.symm.trans hw.rest
    obtain rfl : vindex = windex := hv.index.symm.trans hw.index
    obtain rfl : vline = wline := hv.line.symm.trans hw.line
    obtain rfl : vcolumn = wcolumn := hv.column.symm.trans hw.column
    rfl
  exact hvw ▸ hv'

/-! ### The end of the text -/

def ended : Phase :=
  between false 0 [] []

theorem exists_lineStart (h : p.Shows ⟨[], index, line, column⟩) :
    ∃ p' line', (if p.column = 0 then p else { p with line := p.line + 1, column := 0 }) = p' ∧
      p'.Shows ⟨[], index, line', 0⟩ := by
  by_cases hzero : p.column = 0
  · obtain rfl : 0 = column := hzero.symm.trans h.column
    exact ⟨p, line, if_pos hzero, h⟩
  · exact ⟨_, p.line + 1, if_neg hzero, h.rest, h.index, rfl, rfl, h.size, h.sound, h.unmarked,
      h.noMark⟩

theorem emits_end (columns : List Nat) (hcolumn : ∀ n ∈ columns.head?, n ≤ column) :
    Emits (before allowed column [] columns)
      (List.replicate columns.length .blockEnd ++ [.streamEnd]) ended := by
  intro s hs
  obtain ⟨hquiet, p, index, line, harrives, hshows⟩ := hs
  have hquiet' := fun q => hquiet.update q allowed s.queue
  have hroll := unroll_of_le s.place.line (hquiet' p).indentation (hquiet' p).level
    (n := column) (fun n hn => by have := hcolumn n hn; omega)
  obtain ⟨p₁, hneed, hshows₁⟩ := hshows.need 4
  obtain ⟨p', line', hstart, hshows'⟩ := exists_lineStart hshows₁
  have hcolumn' : p.column = column := hshows.column
  have hrest : p₁.rest = [] := hshows₁.rest
  obtain ⟨hclosed, hplace, hsettled, hlength⟩ := (hquiet' p').unroll_all p'.line
  generalize ht : ({ s with place := p', keyAllowed := allowed } : TokenStream).unroll p'.line (-1) =
    t at hclosed hplace hsettled hlength
  have hdrop : t.dropKey = .ok t := by
    rw [dropKey]
    simp [hclosed.candidate]
  have hend : ({ s with place := p₁, keyAllowed := allowed } : TokenStream).endToken =
      .ok { t.push (t.token .streamEnd) with keyAllowed := false } := by
    simp only [endToken, bind, Except.bind, hstart, ht, hdrop]
    rfl
  refine ⟨{ t.push (t.token .streamEnd) with keyAllowed := false }, ?_, ?_, ?_, ?_⟩
  · rw [fetch, harrives s rfl rfl hquiet.level]
    simp only [bind, Except.bind, hcolumn', hroll, hneed, hrest]
    exact hend
  · refine ⟨⟨hclosed.indentation, hclosed.level, hclosed.candidate, hclosed.brackets,
      hclosed.waiting⟩, rfl, index, line', ?_⟩
    show t.place.Shows _
    rw [hplace]
    exact hshows'
  · have hpush := hclosed.settled_append
      (hclosed.update t.place false (t.queue ++ [t.token .streamEnd])) rfl
    refine hpush.trans ?_
    rw [hsettled, List.append_assoc]
    rfl
  · have hle : s.queue.length ≤ t.queue.length := hlength
    show s.queue.length < (t.queue ++ [_]).length
    rw [List.length_append]
    exact Nat.lt_succ_of_le hle

theorem emits_ended : Emits ended [.streamEnd] ended := by
  have hwithin : Within ended (before false 0 [] []) :=
    @between_within_before [] _ _ _ 0 rfl
  exact (hwithin.opens).emits (emits_end [] (by simp))

end ClassAudit.Yaml.TokenStream
