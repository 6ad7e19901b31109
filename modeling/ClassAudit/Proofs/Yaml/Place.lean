import ClassAudit.Yaml.Place

/-! # Places without faults ahead

    Of a place, a reader sees the characters to come and where they stand. Where the text has no
    fault, the characters that a reader asks for are there, and asking changes nothing of what it
    sees. So what a reader does can be said in terms of views.
-/

namespace ClassAudit.Yaml

/-- What a reader sees of a place. -/
structure View where
  /-- The characters to come. -/
  rest : List Char
  index : Nat
  line : Nat
  column : Nat

/-- A line break that a writer leaves as it is. -/
def isPlainBreak (c : Char) : Bool :=
  c == '\n' || c == '\u2028' || c == '\u2029'

theorem isPlainBreak_iff {c : Char} :
    isPlainBreak c = true ↔ c = '\n' ∨ c = '\u2028' ∨ c = '\u2029' := by
  simp [isPlainBreak, or_assoc]

theorem isBreak_of_isPlainBreak {c : Char} (h : isPlainBreak c = true) : isBreak c = true := by
  rcases isPlainBreak_iff.mp h with rfl | rfl | rfl <;> rfl

namespace Place

/-- A place shows a view, and neither a fault nor a byte-order mark lies ahead. -/
structure Shows (p : Place) (v : View) : Prop where
  rest : p.rest = v.rest
  index : p.index = v.index
  line : p.line = v.line
  column : p.column = v.column
  size : p.size = v.index + v.rest.length
  sound : ∀ piece ∈ p.pieces, piece.sound = true
  unmarked : p.marked = false
  noMark : byteOrderMark ∉ v.rest

namespace Shows

variable {p : Place} {v : View} {c : Char} {cs rest : List Char} {i l col : Nat}

theorem left (h : p.Shows v) : p.left = v.rest.length := by
  rw [Place.left, h.size, h.index]
  omega

/-- The start of a text shows all of it. -/
theorem start {source : Source} (hsound : ∀ piece ∈ source.pieces, piece.sound = true)
    (hmark : byteOrderMark ∉ source.chars) : (Place.start source).Shows ⟨source.chars, 0, 0, 0⟩ :=
  ⟨rfl, rfl, rfl, rfl, (Nat.zero_add _).symm, hsound, rfl, hmark⟩

/-! ### Asking for characters -/

theorem load_eq_some {pieces : List Piece} (h : ∀ piece ∈ pieces, piece.sound = true)
    (wanted known : Nat) :
    ∃ known' pieces', load wanted pieces known = some (known', pieces') ∧
      ∀ piece ∈ pieces', piece.sound = true := by
  induction pieces generalizing known with
  | nil => exact ⟨known + 1, [], rfl, h⟩
  | cons piece pieces ih =>
    obtain ⟨hpiece, hrest⟩ := List.forall_mem_cons.mp h
    rw [load, hpiece, Bool.not_true, if_neg Bool.false_ne_true]
    by_cases hle : wanted ≤ piece.stop
    · exact ⟨piece.stop, pieces, if_pos hle, hrest⟩
    · obtain ⟨known', pieces', heq, hall⟩ := ih hrest piece.stop
      exact ⟨known', pieces', by rw [if_neg hle, heq], hall⟩

theorem need (h : p.Shows v) (n : Nat) : ∃ p', p.need n = .ok p' ∧ p'.Shows v := by
  by_cases hknown : p.index + n ≤ p.known
  · exact ⟨p, if_pos hknown, h⟩
  · obtain ⟨known, pieces, heq, hall⟩ := load_eq_some h.sound (p.index + n) p.known
    have hmark : (p.rest.head? == some byteOrderMark) = false := by
      rw [beq_eq_false_iff_ne, h.rest]
      intro hhead
      exact h.noMark (List.mem_of_mem_head? hhead)
    refine ⟨{ p with known, pieces, marked := p.rest.head? == some byteOrderMark }, ?_, ?_⟩
    · rw [Place.need, if_neg hknown, heq]
    · exact ⟨h.rest, h.index, h.line, h.column, h.size, hall, hmark, h.noMark⟩

/-! ### Going on -/

theorem next (h : p.Shows ⟨c :: cs, i, l, col⟩) : p.next.Shows ⟨cs, i + 1, l, col + 1⟩ := by
  have hrest : p.rest = c :: cs := h.rest
  have hnext : p.next = { p with
      rest := cs, index := p.index + 1, column := p.column + 1,
      fresh := p.fresh && isBlank c } := by
    rw [Place.next, hrest]
  rw [hnext]
  refine ⟨rfl, congrArg (· + 1) h.index, h.line, congrArg (· + 1) h.column, ?_, h.sound,
    h.unmarked, fun hmem => h.noMark (List.mem_cons_of_mem c hmem)⟩
  show p.size = i + 1 + cs.length
  rw [h.size]
  show i + (cs.length + 1) = i + 1 + cs.length
  omega

theorem skip (run : List Char) (h : p.Shows ⟨run ++ rest, i, l, col⟩) :
    (p.skip run.length).Shows ⟨rest, i + run.length, l, col + run.length⟩ := by
  induction run generalizing p i col with
  | nil => exact h
  | cons c run ih =>
    have hnext := ih h.next
    rwa [Nat.add_assoc, Nat.add_comm 1, Nat.add_assoc, Nat.add_comm 1] at hnext

/-- A run of characters with a property, at whose end stands none with it. -/
theorem span (property : Char → Bool) (run : List Char)
    (h : p.Shows ⟨run ++ rest, i, l, col⟩) (hrun : ∀ c ∈ run, property c = true) (hrest : rest.head?.any property = false) :
    ∃ p', p.span property = .ok (run, p') ∧
      p'.Shows ⟨rest, i + run.length, l, col + run.length⟩ := by
  have hgo : ∀ fuel done, run.length < fuel → ∃ p', Place.span.go property fuel done p =
      .ok (done.reverse ++ run, p') ∧
        p'.Shows ⟨rest, i + run.length, l, col + run.length⟩ := by
    intro fuel done hfuel
    induction run generalizing p i col fuel done with
    | nil =>
      obtain _ | fuel := fuel
      · omega
      obtain ⟨p', hneed, hshows⟩ := h.need 1
      refine ⟨p', ?_, hshows⟩
      rw [Place.span.go, hneed]
      have hrest' : p'.rest = rest := hshows.rest
      cases rest with
      | nil => simp [bind, Except.bind, hrest', pure, Except.pure]
      | cons c cs =>
        have hc : property c = false := hrest
        simp [bind, Except.bind, hrest', hc, pure, Except.pure]
    | cons c run ih =>
      obtain _ | fuel := fuel
      · omega
      obtain ⟨hc, hrun⟩ := List.forall_mem_cons.mp hrun
      obtain ⟨p', hneed, hshows⟩ := h.need 1
      have hrest' : p'.rest = c :: (run ++ rest) := hshows.rest
      obtain ⟨p'', hgo, hafter⟩ := ih hshows.next hrun fuel (c :: done) (by simpa using hfuel)
      refine ⟨p'', ?_, ?_⟩
      · rw [Place.span.go, hneed]
        simp only [bind, Except.bind, hrest', hc, if_true, hgo]
        simp
      · rwa [Nat.add_assoc, Nat.add_comm 1, Nat.add_assoc, Nat.add_comm 1] at hafter
  refine hgo (p.left + 1) [] ?_
  rw [h.left, List.length_append]
  omega

/-! ### Line breaks -/

theorem lineBreak (h : p.Shows ⟨c :: cs, i, l, col⟩) (hc : isPlainBreak c = true) :
    ∃ p', p.lineBreak = .ok ([c], p') ∧ p'.Shows ⟨cs, i + 1, l + 1, 0⟩ := by
  obtain ⟨p', hneed, hshows⟩ := h.need 2
  have hrest : p'.rest = c :: cs := hshows.rest
  refine ⟨{ p' with
    rest := p'.rest.drop 1, index := p'.index + 1, line := p'.line + 1, column := 0,
    fresh := true }, ?_, ?_⟩
  · rw [Place.lineBreak, hneed]
    obtain ⟨chars, _⟩ := p'
    subst hrest
    rcases isPlainBreak_iff.mp hc with rfl | rfl | rfl <;> cases cs <;> rfl
  · refine ⟨by rw [hrest]; rfl, congrArg (· + 1) hshows.index, congrArg (· + 1) hshows.line, rfl,
      ?_, hshows.sound, hshows.unmarked, fun hmem => h.noMark (List.mem_cons_of_mem c hmem)⟩
    show p'.size = i + 1 + cs.length
    rw [hshows.size]
    show i + (cs.length + 1) = i + 1 + cs.length
    omega

theorem skipBreak (h : p.Shows ⟨c :: cs, i, l, col⟩) (hc : isPlainBreak c = true) :
    ∃ p', p.skipBreak = .ok p' ∧ p'.Shows ⟨cs, i + 1, l + 1, 0⟩ := by
  obtain ⟨p', hbreak, hshows⟩ := h.lineBreak hc
  have hrest : p.rest = c :: cs := h.rest
  refine ⟨p', ?_, hshows⟩
  rw [Place.skipBreak, hrest, hbreak]
  simp [endsLine, isBreak_of_isPlainBreak hc, bind, Except.bind, pure, Except.pure]

end Shows

end Place

end ClassAudit.Yaml
