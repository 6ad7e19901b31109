import ClassAudit.Proofs.Yaml.Phase
import ClassAudit.Proofs.Yaml.Scalar.Plain

/-! # The tokens of block collections

    What the stream emits at the dash of an item, at a key with its colon, and at the brackets of
    an empty list. The first item or key opens the collection that it stands in.
-/

namespace ClassAudit.Yaml.TokenStream

variable {column : Nat} {columns : List Nat} {s : TokenStream}

/-! ### Opening block collections -/

/-- The columns of the open block collections inside one that stands at a column. -/
def entered (columns : List Nat) (column : Nat) : List Nat :=
  if columns.head? = some column then columns else column :: columns

/-- What is emitted in front of an entry of a block collection that stands at a column: its start,
    unless it is open already. -/
def entering (start : TokenKind) (columns : List Nat) (column : Nat) : List TokenKind :=
  if columns.head? = some column then [] else [start]

theorem insertIdx_append {α : Type} (front more : List α) (a : α) :
    (front ++ more).insertIdx front.length a = front ++ a :: more := by
  induction front with
  | nil => rfl
  | cons b front ih => rw [List.cons_append, List.length_cons, List.insertIdx_succ_cons, ih]; rfl

/-- A token in front of the one that stands at the head of `more`. -/
theorem insertBefore_eq {front more : List Token} (hqueue : s.queue = front ++ more) (t : Token) :
    s.insertBefore (s.taken + front.length) t = { s with queue := front ++ t :: more } := by
  rw [insertBefore, if_neg (by omega), Nat.add_sub_cancel_left, hqueue, insertIdx_append]

/-- A block collection is opened at the end of the queue, or in front of a token. -/
theorem roll_eq (hind : s.indentation :: s.outer = columns.map (fun c : Nat => (c : Int)) ++ [-1])
    (hlevel : s.level = 0) (hcolumn : ∀ c ∈ columns.head?, c ≤ column)
    (hdepth : columns.length < depthLimit) (start : TokenKind) (line : Nat)
    {front more : List Token} (hqueue : s.queue = front ++ more) (number : Option Nat)
    (hnumber : (number = none ∧ more = []) ∨ number = some (s.taken + front.length)) :
    ∃ opening ind outer, opening.map Token.kind = entering start columns column ∧
      ind :: outer = (entered columns column).map (fun c : Nat => (c : Int)) ++ [-1] ∧
      s.roll start line column number = .ok { s with
        indentation := ind, outer := outer, queue := front ++ (opening ++ more) } := by
  have hflow : s.inFlow = false := by simp [inFlow, hlevel]
  by_cases hopen : columns.head? = some column
  · -- The collection is open.
    refine ⟨[], s.indentation, s.outer, ?_, ?_, ?_⟩
    · rw [entering, if_pos hopen, List.map_nil]
    · rw [entered, if_pos hopen, hind]
    · obtain ⟨columns, rfl⟩ : ∃ l, columns = column :: l := by
        cases columns with
        | nil => cases hopen
        | cons c l => exact ⟨l, by rw [Option.some.inj hopen]⟩
      have heq : s.indentation = column := (List.cons.inj hind).1
      rw [roll, if_pos (by simp [heq]), List.nil_append, ← hqueue]
  · have hlt : s.indentation < (column : Int) := by
      cases columns with
      | nil =>
        have heq : s.indentation = -1 := (List.cons.inj hind).1
        omega
      | cons c columns =>
        have heq : s.indentation = c := (List.cons.inj hind).1
        have hle := hcolumn c rfl
        have hne : c ≠ column := fun h => hopen (by rw [h]; rfl)
        omega
    have hlength : s.outer.length = columns.length := by
      have := congrArg List.length hind
      simpa using this
    have hlimit : ¬ depthLimit < s.outer.length + 1 := by omega
    refine ⟨[⟨start, line + 1⟩], column, s.indentation :: s.outer, ?_, ?_, ?_⟩
    · rw [entering, if_neg hopen]
      rfl
    · rw [entered, if_neg hopen, hind]
      rfl
    · rw [roll, hflow, if_neg (by simpa using hlt), if_neg hlimit]
      rcases hnumber with ⟨rfl, rfl⟩ | rfl
      · rw [List.append_nil] at hqueue
        simp [push, hqueue]
      · simp only
        rw [show s.taken + front.length = ({ s with
          indentation := (column : Int), outer := s.indentation :: s.outer } : TokenStream).taken +
            front.length from rfl, insertBefore_eq (by exact hqueue)]
        rfl

theorem Quiet.dropKey (h : s.Quiet columns) : s.dropKey = .ok s := by
  rw [TokenStream.dropKey]
  simp [h.candidate]

theorem between_holds_place {allowed : Bool} {rest : List Char} {s : TokenStream} {p : Place}
    (h : (between allowed column rest columns).holds s)
    (hview : ∀ v, s.place.Shows v → p.Shows v) :
    (between allowed column rest columns).holds { s with place := p } := by
  obtain ⟨hquiet, hallowed, index, line, hshows⟩ := h
  exact ⟨hquiet.update p s.keyAllowed s.queue, hallowed, index, line, hview _ hshows⟩

/-! ### Items -/

theorem contentToken_dash {cs : List Char} (h : endsWord cs = true) :
    s.contentToken '-' cs = s.dashToken := by
  simp [contentToken, h]

theorem emits_dash {cs : List Char} (hends : endsWord cs = true) (hcs : noComment cs = true)
    (hzero : column ≠ 0) (hcolumn : ∀ c ∈ columns.head?, c ≤ column)
    (hdepth : columns.length < depthLimit) :
    Emits (before true column ('-' :: cs) columns)
      (entering .blockSequenceStart columns column ++ [.blockEntry])
      (between true (column + 1) cs (entered columns column)) := by
  refine emits_content hcolumn (fun h => absurd h hzero)
    (fun s p hs hview => between_holds_place hs hview) ?_
  intro s index line hquiet hallowed hshows
  have hcol : s.place.column = column := hshows.column
  have hcontext : (!s.inFlow && !s.keyAllowed) = false := by simp [hallowed]
  obtain ⟨opening, ind, outer, hkinds, hind, hroll⟩ := roll_eq hquiet.indentation hquiet.level
    hcolumn hdepth .blockSequenceStart s.place.line (List.append_nil s.queue).symm
    none (.inl ⟨rfl, rfl⟩)
  rw [List.append_nil] at hroll
  have hopened : ({ s with indentation := ind, outer := outer, queue := s.queue ++ opening } :
      TokenStream).Quiet (entered columns column) :=
    ⟨hind, hquiet.level, hquiet.candidate, hquiet.brackets, hquiet.waiting⟩
  have hquiet' := hopened.update (s.place.skip 1) true
    (s.queue ++ opening ++ [s.token .blockEntry])
  refine ⟨_, _, ?_, ⟨hquiet', rfl, _, _, Place.Shows.skip ['-'] hshows⟩, ?_, ?_,
    Place.Shows.skip ['-'] hshows, hcs⟩
  · rw [contentToken_dash hends, dashToken]
    simp only [hcontext, hcol, hroll, bind, Except.bind, hopened.dropKey, Bool.false_eq_true,
      if_false]
    rfl
  · rw [hquiet.settled_append hquiet' (List.append_assoc _ _ _), List.map_append, hkinds]
    rfl
  · simp

/-! ### Keys -/

/-- A name has been found that turns out to be a key at the colon behind it. -/
structure Named (s : TokenStream) (name : List Char) (column : Nat) (after : List Char)
    (columns : List Nat) : Prop where
  indentation : s.indentation :: s.outer = columns.map (fun c : Nat => (c : Int)) ++ [-1]
  level : s.level = 0
  brackets : s.brackets = []
  possible : s.candidate.possible = true
  start : s.candidate.column = column
  place : ∃ index, index ≤ s.candidate.index + 1024 ∧
    s.place.Shows ⟨':' :: after, index, s.candidate.line, column + name.length⟩
  queue : ∃ front line, s.queue = front ++ [⟨.scalar (String.ofList name) .plain, line⟩] ∧
    s.candidate.token = s.taken + front.length
  waiting : s.waiting = [(s.candidate.token, 0)]
  keyAllowed : s.keyAllowed = false

namespace Named

variable {name after : List Char}

theorem exists_front (h : s.Named name column after columns) (hsettled : s.settled ≠ []) :
    ∃ t front line, s.queue = t :: (front ++ [⟨.scalar (String.ofList name) .plain, line⟩]) ∧
      s.candidate.token = s.taken + 1 + front.length := by
  obtain ⟨front, line, hqueue, htoken⟩ := h.queue
  cases front with
  | nil =>
    rw [settled_of_possible h.possible, hqueue] at hsettled
    exact absurd rfl hsettled
  | cons t front =>
    refine ⟨t, front, line, hqueue, ?_⟩
    rw [htoken, List.length_cons]
    omega

theorem take (h : s.Named name column after columns) (hsettled : s.settled ≠ []) :
    s.take.Named name column after columns := by
  obtain ⟨t, front, line, hqueue, htoken⟩ := h.exists_front hsettled
  refine ⟨h.indentation, h.level, h.brackets, h.possible, h.start, h.place,
    ⟨front, line, ?_, htoken⟩, ?_, h.keyAllowed⟩
  · show s.queue.tail = _
    rw [hqueue]
    rfl
  · show s.waiting.filter (fun w => decide (s.taken < w.1)) = [(s.candidate.token, 0)]
    have hlt : s.taken < s.candidate.token := by omega
    rw [h.waiting, List.filter_cons_of_pos (by simpa using hlt)]
    rfl

end Named

/-- Behind a name that turns out to be a key. -/
def named (name : List Char) (column : Nat) (after : List Char) (columns : List Nat) : Phase where
  holds s := s.Named name column after columns
  free := by
    intro s hs hsettled
    obtain ⟨t, front, line, hqueue, htoken⟩ := hs.exists_front hsettled
    rw [hs.waiting]
    have hne : (s.taken == s.candidate.token) = false := by
      rw [beq_eq_false_iff_ne]
      omega
    rw [List.lookup_cons, hne]
    rfl
  take hs hsettled := hs.take hsettled

theorem contentToken_name {c : Char} (h : isNameChar c = true) (cs : List Char) :
    s.contentToken c cs = s.plainToken := by
  have hne : ∀ d : Char, isNameChar d = false → c ≠ d := fun d => ne_of_isNameChar h
  have hstarts : startsPlain s.inFlow c cs = true := by
    have hmem : "-?:,[]\x7b\x7d#&*!|>'\"%@`".toList.contains c = false := by
      simp [hne, isNameChar]
    rw [startsPlain, isBlank_of_isNameChar h, isBreak_of_isNameChar h, hmem]
    rfl
  unfold contentToken
  split
  all_goals first
    | exact absurd h (by decide)
    | simp [hne, hstarts, isNameChar]

/-- A key emits nothing before its colon has been found. -/
theorem emits_name {name after : List Char} (hne : name ≠ [])
    (hname : ∀ c ∈ name, isNameChar c = true) (hlength : name.length ≤ 1024)
    (hafter : endsWord after = true) (hcolumn : ∀ c ∈ columns.head?, c ≤ column) :
    Emits (before true column (name ++ ':' :: after) columns) [] (named name column after columns) := by
  obtain ⟨c, rest, hcons⟩ := List.exists_cons_of_ne_nil hne
  have hc : isNameChar c = true := hname c (by rw [hcons]; exact List.mem_cons_self)
  have hbody : name ++ ':' :: after = c :: (rest ++ ':' :: after) := by rw [hcons]; rfl
  rw [hbody]
  refine emits_content hcolumn
    (fun _ => ⟨ne_of_isNameChar hc rfl, ne_of_isNameChar hc rfl, ne_of_isNameChar hc rfl⟩) ?_ ?_
  · intro s p hs hview
    obtain ⟨index, hindex, hshows⟩ := hs.place
    exact ⟨hs.indentation, hs.level, hs.brackets, hs.possible, hs.start,
      ⟨index, hindex, hview _ hshows⟩, hs.queue, hs.waiting, hs.keyAllowed⟩
  · intro s index line hquiet hallowed hshows
    rw [← hbody] at hshows
    have hflow : s.inFlow = false := by simp [inFlow, hquiet.level]
    obtain ⟨p, hread, hafter'⟩ :=
      readPlain_key (s.indentation + 1) hshows hne hname hafter
    have hcol : s.place.column = column := hshows.column
    have hline : s.place.line = line := hshows.line
    have hind : s.place.index = index := hshows.index
    let k : KeyCandidate := s.newCandidate true (!s.inFlow && s.indentation == s.place.column)
    refine ⟨{ s with
      candidate := k, waiting := [(k.token, 0)], place := p, keyAllowed := false,
      queue := s.queue ++ [s.token (.scalar (String.ofList name) .plain)] }, _, ?_, ?_, ?_, ?_,
      hafter', rfl⟩
    · rw [contentToken_name hc, plainToken, saveKey, if_pos hallowed, hquiet.dropKey]
      simp only [bind, Except.bind, pure, Except.pure]
      rw [show ({ s with candidate := k, waiting := (k.token, s.level) :: s.waiting } :
        TokenStream).inFlow = false from hflow]
      simp only [hread, hquiet.level, hquiet.waiting]
      rfl
    · refine ⟨hquiet.indentation, hquiet.level, hquiet.brackets, rfl, hcol,
        ⟨index + name.length, ?_, ?_⟩, ⟨s.queue, _, rfl, rfl⟩, rfl, rfl⟩
      · show index + name.length ≤ s.place.index + 1024
        omega
      · show p.Shows ⟨':' :: after, _, s.place.line, _⟩
        rw [hline]
        exact hafter'
    · rw [settled_of_not_possible hquiet.candidate, settled_of_possible rfl, List.append_nil]
      simp
    · simp

theorem contentToken_colon {cs : List Char} (h : endsWord cs = true) :
    s.contentToken ':' cs = s.valueToken := by
  simp [contentToken, h]

/-- The colon behind a name makes it a key, which may open a mapping. -/
theorem emits_colon {name after : List Char} (hne : name ≠ []) (hafter : endsWord after = true)
    (hcomment : noComment after = true) (hcolumn : ∀ c ∈ columns.head?, c ≤ column)
    (hdepth : columns.length < depthLimit) :
    Emits (named name column after columns)
      (entering .blockMappingStart columns column ++
        [.key, .scalar (String.ofList name) .plain, .value])
      (between false (column + name.length + 1) after (entered columns column)) := by
  intro s hs
  obtain ⟨index, hindex, hshows⟩ := hs.place
  obtain ⟨front, line, hqueue, htoken⟩ := hs.queue
  have hlength : name.length ≠ 0 := fun h => hne (List.length_eq_zero_iff.mp h)
  -- The colon stands where the stream is, to the right of all block collections.
  obtain ⟨p, hshows₁, hgo⟩ := skipToToken_go_here (n := 0) hshows rfl (s.inFlow || !s.keyAllowed)
  have hskip : s.skipToToken = .ok { s with place := p, keyAllowed := false } := by
    rw [skipToToken, hgo s _ rfl rfl, ← hs.keyAllowed]
  have hroll := unroll_of_le (s := { s with place := p, keyAllowed := false }) s.place.line
    hs.indentation hs.level (n := (column + name.length : Nat))
    (fun c hc => by have := hcolumn c hc; omega)
  obtain ⟨p', hshows', hfetch⟩ := fetch_content hskip hshows₁ (fun h => by omega) hroll
  have hshows'' := Place.Shows.skip [':'] hshows'
  -- The mark of the key goes in front of its name, and the start of the mapping in front of both.
  have hsettle : settle { s with place := p', keyAllowed := false } s.candidate =
      .ok s.candidate := by
    have hreach : reaches s.candidate p' = true := by
      rw [reaches, hshows'.line, hshows'.index]
      simpa using hindex
    rw [settle, if_pos]
    simp [hreach]
  have hinsert : ({ s with place := p', keyAllowed := false } : TokenStream).insertBefore
      s.candidate.token ⟨.key, s.candidate.line + 1⟩ = { s with
        place := p', keyAllowed := false, queue := front ++
          (⟨.key, s.candidate.line + 1⟩ :: [⟨.scalar (String.ofList name) .plain, line⟩]) } := by
    rw [htoken]
    exact insertBefore_eq (s := { s with place := p', keyAllowed := false }) hqueue _
  obtain ⟨opening, ind, outer, hkinds, hind, hopen⟩ := roll_eq (s := { s with
      place := p', keyAllowed := false, queue := front ++
        (⟨.key, s.candidate.line + 1⟩ :: [⟨.scalar (String.ofList name) .plain, line⟩]) })
    hs.indentation hs.level hcolumn hdepth .blockMappingStart s.candidate.line rfl
    (some s.candidate.token) (.inr (congrArg some htoken))
  have hwaiting : s.waiting.filter (·.1 != s.candidate.token) = [] := by
    rw [hs.waiting]
    simp
  have hcontent : ({ s with place := p', keyAllowed := false } : TokenStream).contentToken ':' after =
      .ok { s with
        place := p'.skip 1, keyAllowed := false, indentation := ind, outer := outer,
        candidate := { s.candidate with possible := false },
        waiting := s.waiting.filter (·.1 != s.candidate.token),
        queue := front ++ (opening ++ (⟨.key, s.candidate.line + 1⟩ ::
          [⟨.scalar (String.ofList name) .plain, line⟩])) ++ [⟨.value, p'.line + 1⟩] } := by
    rw [contentToken_colon hafter, valueToken]
    simp only [bind, Except.bind, hsettle, hs.possible, if_true, hinsert, hs.start, hopen]
    rfl
  obtain ⟨p'', hfetch', hview⟩ := hfetch hcontent hshows'' hcomment
  refine ⟨_, hfetch', ?_, ?_, ?_⟩
  · refine ⟨⟨hind, hs.level, rfl, hs.brackets, hwaiting⟩, rfl, _, _, hview⟩
  · rw [settled_of_possible hs.possible, settled_of_not_possible rfl, hqueue]
    simp [hkinds]
  · rw [hqueue]
    simp

/-! ### Brackets -/

/-- Inside brackets that hold nothing, in front of what closes them. -/
def bracketed (column : Nat) (rest : List Char) (columns : List Nat) : Phase where
  holds s := s.indentation :: s.outer = columns.map (fun c : Nat => (c : Int)) ++ [-1] ∧
    s.level = 1 ∧ (∃ k, s.brackets = [k] ∧ k.possible = false) ∧ s.candidate.possible = false ∧
    s.waiting = [] ∧ s.keyAllowed = true ∧ ∃ index line, s.place.Shows ⟨rest, index, line, column⟩
  free := by
    intro s hs _
    obtain ⟨-, -, -, -, hwaiting, -⟩ := hs
    rw [hwaiting]
    rfl
  take := by
    intro s hs _
    obtain ⟨hind, hlevel, hbrackets, hcandidate, hwaiting, hrest⟩ := hs
    refine ⟨hind, hlevel, hbrackets, hcandidate, ?_, hrest⟩
    show s.waiting.filter _ = []
    rw [hwaiting]
    rfl

/-- An opening bracket behind a colon. -/
theorem emits_open {rest : List Char} (hrest : noComment rest = true) (hzero : column ≠ 0)
    (hcolumn : ∀ c ∈ columns.head?, c ≤ column) :
    Emits (before false column ('[' :: rest) columns) [.flowSequenceStart]
      (bracketed (column + 1) rest columns) := by
  refine emits_content hcolumn (fun h => absurd h hzero) ?_ ?_
  · intro s p hs hview
    obtain ⟨hind, hlevel, hbrackets, hcandidate, hwaiting, hallowed, index, line, hshows⟩ := hs
    exact ⟨hind, hlevel, hbrackets, hcandidate, hwaiting, hallowed, index, line, hview _ hshows⟩
  · intro s index line hquiet hallowed hshows
    have hafter := Place.Shows.skip ['['] hshows
    refine ⟨{ s with
      place := s.place.skip 1, level := 1, brackets := [s.candidate],
      candidate := s.newCandidate false false, keyAllowed := true,
      queue := s.queue ++ [s.token .flowSequenceStart] }, _, ?_, ?_, ?_, ?_, hafter, hrest⟩
    · show s.openToken .flowSequenceStart = _
      rw [openToken, saveKey, if_neg (by rw [hallowed]; exact Bool.false_ne_true)]
      simp only [bind, Except.bind, hquiet.level, hquiet.brackets]
      rfl
    · exact ⟨hquiet.indentation, rfl, ⟨_, rfl, hquiet.candidate⟩, rfl, hquiet.waiting, rfl, _, _,
        hafter⟩
    · rw [settled_of_not_possible hquiet.candidate, settled_of_not_possible rfl]
      simp [token]
    · simp

theorem emits_close {rest : List Char} (hrest : noComment rest = true) (hzero : column ≠ 0) :
    Emits (bracketed column (']' :: rest) columns) [.flowSequenceEnd]
      (between false (column + 1) rest columns) := by
  intro s hs
  obtain ⟨hind, hlevel, ⟨k, hbrackets, hk⟩, hcandidate, hwaiting, hallowed, index, line, hshows⟩ := hs
  obtain ⟨p, hshows₁, hgo⟩ := skipToToken_go_here (n := 0) hshows rfl (s.inFlow || !s.keyAllowed)
  have hskip : s.skipToToken = .ok { s with place := p, keyAllowed := true } := by
    rw [skipToToken, hgo s _ rfl rfl, ← hallowed]
  have hroll : ({ s with place := p, keyAllowed := true } : TokenStream).unroll s.place.line column =
      { s with place := p, keyAllowed := true } := by
    rw [unroll, if_pos (by simp [inFlow, hlevel])]
  obtain ⟨p', hshows', hfetch⟩ := fetch_content hskip hshows₁ (fun h => absurd h hzero) hroll
  have hafter := Place.Shows.skip [']'] hshows'
  have hdrop : ({ s with place := p', keyAllowed := true } : TokenStream).dropKey =
      .ok { s with place := p', keyAllowed := true } := by
    rw [dropKey]
    simp [hcandidate]
  have hcontent : ({ s with place := p', keyAllowed := true } : TokenStream).contentToken ']' rest =
      .ok { s with
        place := p'.skip 1, level := 0, brackets := [], candidate := k, keyAllowed := false,
        waiting := s.waiting.filter (·.1 != s.candidate.token),
        queue := s.queue ++ [⟨.flowSequenceEnd, p'.line + 1⟩] } := by
    show closeToken .flowSequenceEnd _ = _
    rw [closeToken, hdrop]
    simp only [bind, Except.bind, hbrackets, hlevel]
    rfl
  obtain ⟨p'', hfetch', hview⟩ := hfetch hcontent hafter hrest
  refine ⟨_, hfetch', ⟨⟨hind, rfl, hk, rfl, ?_⟩, rfl, _, _, hview⟩, ?_, ?_⟩
  · show s.waiting.filter _ = []
    rw [hwaiting]
    rfl
  · rw [settled_of_not_possible hcandidate, settled_of_not_possible hk]
    simp
  · simp

end ClassAudit.Yaml.TokenStream
