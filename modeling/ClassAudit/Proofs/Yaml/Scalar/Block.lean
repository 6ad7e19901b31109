import ClassAudit.Proofs.Yaml.Scalar.Quoted

/-! # Literal blocks read back

    A text of several lines is written as a literal block, with each line indented. It is read back
    if its first line starts with neither a blank nor a line break.
-/

namespace ClassAudit.Yaml

variable {p : Place} {rest text : List Char} {index line column n indent : Nat} {c : Char}
  {chomping : Chomping}

/-! ### Headers -/

/-- The sign in a header for what happens to the line breaks at the end. -/
def Chomping.sign : Chomping → List Char
  | .strip => ['-']
  | .clip => []
  | .keep => ['+']

/-- No digit stands in front of a line feed. -/
theorem readIndentation_none (h : p.Shows ⟨'\n' :: rest, index, line, column⟩) :
    ∃ p', readIndentation p = .ok (0, p') ∧ p'.Shows ⟨'\n' :: rest, index, line, column⟩ := by
  obtain ⟨p', hneed, hshows⟩ := h.need 1
  have hrest : p'.rest = '\n' :: rest := hshows.rest
  refine ⟨p', ?_, hshows⟩
  rw [readIndentation, hneed]
  simp only [bind, Except.bind, hrest]
  rfl

theorem skipBlanks_none (h : p.Shows ⟨'\n' :: rest, index, line, column⟩) :
    ∃ p' p'', p.skipBlanks = .ok p' ∧ p'.rest = '\n' :: rest ∧ p'.skipBreak = .ok p'' ∧
      p''.Shows ⟨rest, index + 1, line + 1, 0⟩ := by
  obtain ⟨p', hspan, hshows⟩ := Place.Shows.span isBlank [] h
    (fun c hc => nomatch hc) rfl
  obtain ⟨p'', hbreak, hafter⟩ := Place.Shows.skipBreak hshows rfl
  refine ⟨p', p'', ?_, hshows.rest, hbreak, hafter⟩
  rw [Place.skipBlanks, hspan]
  rfl

theorem readBlockHeader_signed (hc : c = '-' ∧ chomping = .strip ∨ c = '+' ∧ chomping = .keep)
    (h : p.Shows ⟨c :: '\n' :: rest, index, line, column⟩) :
    ∃ p' index', readBlockHeader p = .ok ((chomping, 0), p') ∧
      p'.Shows ⟨rest, index', line + 1, 0⟩ := by
  obtain ⟨p₁, hneed₁, hshows₁⟩ := h.need 1
  obtain ⟨p₁', hneed₁', hshows₁'⟩ := hshows₁.need 1
  have hrest₁ : p₁.rest = c :: '\n' :: rest := hshows₁.rest
  have hrest₁' : p₁'.rest = c :: '\n' :: rest := hshows₁'.rest
  have hchomping : readChomping p₁ = .ok (chomping, p₁'.next) := by
    rw [readChomping, hneed₁']
    rcases hc with ⟨rfl, rfl⟩ | ⟨rfl, rfl⟩ <;> simp only [bind, Except.bind, hrest₁'] <;> rfl
  obtain ⟨p₂, hread, hshows₂⟩ := readIndentation_none (Place.Shows.next hshows₁')
  obtain ⟨p₃, p₄, hblanks, hrest₃, hbreak, hshows₄⟩ := skipBlanks_none hshows₂
  refine ⟨p₄, _, ?_, hshows₄⟩
  rw [readBlockHeader, hneed₁]
  rcases hc with ⟨rfl, rfl⟩ | ⟨rfl, rfl⟩ <;>
    simp [bind, Except.bind, hrest₁, hchomping, hread, pure, Except.pure, hblanks, hrest₃, endsLine,
      isBreak, hbreak]

theorem readBlockHeader_eq (h : p.Shows ⟨chomping.sign ++ '\n' :: rest, index, line, column⟩) :
    ∃ p' index', readBlockHeader p = .ok ((chomping, 0), p') ∧
      p'.Shows ⟨rest, index', line + 1, 0⟩ := by
  cases chomping with
  | strip => exact readBlockHeader_signed (.inl ⟨rfl, rfl⟩) h
  | keep => exact readBlockHeader_signed (.inr ⟨rfl, rfl⟩) h
  | clip =>
    obtain ⟨p₁, hneed₁, hshows₁⟩ := h.need 1
    have hrest₁ : p₁.rest = '\n' :: rest := hshows₁.rest
    obtain ⟨p₂, hread, hshows₂⟩ := readIndentation_none hshows₁
    obtain ⟨p₃, p₄, hblanks, hrest₃, hbreak, hshows₄⟩ := skipBlanks_none hshows₂
    refine ⟨p₄, _, ?_, hshows₄⟩
    rw [readBlockHeader, hneed₁]
    simp [bind, Except.bind, hrest₁, hread, pure, Except.pure, hblanks, hrest₃, endsLine, isBreak,
      hbreak]

/-! ### Indentation and empty lines -/

theorem skipIndentation_eq (indentation : Nat)
    (h : p.Shows ⟨List.replicate n ' ' ++ rest, index, line, column⟩)
    (hle : indentation = 0 ∨ column + n ≤ indentation)
    (hrest : rest.head? = some ' ' → indentation ≠ 0 ∧ column + n = indentation) :
    ∃ p', skipIndentation indentation p = .ok p' ∧
      p'.Shows ⟨rest, index + n, line, column + n⟩ := by
  have hgo : ∀ fuel, n < fuel → ∃ p', skipIndentation.go indentation fuel p = .ok p' ∧
      p'.Shows ⟨rest, index + n, line, column + n⟩ := by
    intro fuel hfuel
    induction n generalizing p index column fuel with
    | zero =>
      obtain _ | fuel := fuel
      · omega
      obtain ⟨p', hneed, hshows⟩ := h.need 1
      have hstop : ((decide (indentation = 0) || decide (p'.column < indentation)) &&
          p'.rest.head? == some ' ') = false := by
        rw [hshows.rest, hshows.column]
        by_cases hhead : rest.head? = some ' '
        · obtain ⟨hne, heq⟩ := hrest hhead
          have hcolumn : ¬ column < indentation := by omega
          simp [hne, hcolumn]
        · simp [hhead]
      refine ⟨p', ?_, hshows⟩
      rw [skipIndentation.go, hneed]
      simp only [bind, Except.bind, hstop, Bool.false_eq_true, if_false]
      rfl
    | succ n ih =>
      obtain _ | fuel := fuel
      · omega
      obtain ⟨p', hneed, hshows⟩ := h.need 1
      have hgoes : ((decide (indentation = 0) || decide (p'.column < indentation)) &&
          p'.rest.head? == some ' ') = true := by
        rw [hshows.rest, hshows.column]
        have hcolumn : indentation = 0 ∨ column < indentation := by omega
        simpa [List.replicate_succ] using hcolumn
      obtain ⟨p'', hgo, hafter⟩ := ih (Place.Shows.next hshows) (by omega)
        (fun hhead => by have := hrest hhead; omega) fuel (by omega)
      refine ⟨p'', ?_, ?_⟩
      · rw [skipIndentation.go, hneed]
        simp only [bind, Except.bind, hgoes, if_true, hgo]
      · rwa [Nat.add_assoc, Nat.add_comm 1, Nat.add_assoc, Nat.add_comm 1] at hafter
  refine hgo (p.left + 1) ?_
  rw [h.left, List.length_append, List.length_replicate]
  omega

section EmptyLines

variable {indentation : Nat} (hle : indentation = 0 ∨ n ≤ indentation)
  (hrest : rest.head?.any isBreak = false)
  (hblank : rest.head?.any isBlank = true → indentation ≠ 0 ∧ n = indentation)

include hle hrest hblank

/-- The line behind the empty ones is the one whose indentation counts. -/
theorem readEmptyLines_last (h : p.Shows ⟨List.replicate n ' ' ++ rest, index, line, 0⟩)
    (done : List Char) (most fuel : Nat) :
    ∃ p' index', readEmptyLines.go indentation (fuel + 1) done most p =
        .ok ((done, max most n), p') ∧ p'.Shows ⟨rest, index', line, n⟩ := by
  have hspace : rest.head? = some ' ' → indentation ≠ 0 ∧ 0 + n = indentation := by
    intro hhead
    rw [Nat.zero_add]
    exact hblank (by rw [hhead]; rfl)
  obtain ⟨p', hskip, hshows⟩ := skipIndentation_eq indentation h (by rwa [Nat.zero_add]) hspace
  rw [Nat.zero_add] at hshows
  have hcolumn : p'.column = n := hshows.column
  have hrest' : p'.rest = rest := hshows.rest
  have htab : ((decide (indentation = 0) || decide (p'.column < indentation)) &&
      p'.rest.head? == some '\t') = false := by
    rw [hrest', hcolumn]
    by_cases hhead : rest.head? = some '\t'
    · obtain ⟨hne, heq⟩ := hblank (by rw [hhead]; rfl)
      have hlt : ¬ n < indentation := by omega
      simp [hne, hlt]
    · simp [hhead]
  have hend : (!p'.rest.isEmpty && endsLine p'.rest) = false := by
    rw [hrest']
    cases rest with
    | nil => rfl
    | cons c cs =>
      have hc : isBreak c = false := hrest
      simp [endsLine, hc]
  refine ⟨p', _, ?_, hshows⟩
  rw [readEmptyLines.go, hskip]
  simp only [bind, Except.bind, htab, hend, Bool.false_eq_true, if_false]
  simp [hcolumn, pure, Except.pure]

/-- Empty lines are read up to the next line of text, or to a line that is indented by less. -/
theorem readEmptyLines_go {breaks : List Char}
    (h : p.Shows ⟨breaks ++ (List.replicate n ' ' ++ rest), index, line, 0⟩)
    (hbreaks : ∀ b ∈ breaks, isPlainBreak b = true) (done : List Char) (most : Nat) {fuel : Nat}
    (hfuel : breaks.length < fuel) :
    ∃ p' index', readEmptyLines.go indentation fuel done most p =
        .ok ((done ++ breaks, max most n), p') ∧
      p'.Shows ⟨rest, index', line + breaks.length, n⟩ := by
  induction breaks generalizing p index line done fuel with
  | nil =>
    obtain _ | fuel := fuel
    · omega
    rw [List.append_nil]
    exact readEmptyLines_last hle hrest hblank h done most fuel
  | cons b breaks ih =>
    obtain _ | fuel := fuel
    · omega
    obtain ⟨hb, hbreaks⟩ := List.forall_mem_cons.mp hbreaks
    have hne : b ≠ ' ' ∧ b ≠ '\t' := by
      rcases isPlainBreak_iff.mp hb with rfl | rfl | rfl <;> decide
    have hb' := isBreak_of_isPlainBreak hb
    obtain ⟨p', hskip, hshows⟩ := skipIndentation_eq indentation (n := 0) h
      (by omega) (fun hhead => absurd (Option.some.inj hhead) hne.1)
    have hcolumn : p'.column = 0 := hshows.column
    have hrest' : p'.rest = b :: (breaks ++ (List.replicate n ' ' ++ rest)) := hshows.rest
    obtain ⟨q, hbreak, hq⟩ := Place.Shows.lineBreak hshows hb
    obtain ⟨q', index', hgo, hafter⟩ := ih hq hbreaks (done ++ [b])
      (show breaks.length < fuel by simpa using hfuel)
    refine ⟨q', index', ?_, ?_⟩
    · rw [readEmptyLines.go, hskip]
      simp only [bind, Except.bind, hcolumn, hrest']
      simp [hne.2, endsLine, hb', hbreak, hgo]
    · rw [Nat.add_assoc, Nat.add_comm 1] at hafter
      exact hafter

theorem readEmptyLines_eq (breaks : List Char)
    (h : p.Shows ⟨breaks ++ (List.replicate n ' ' ++ rest), index, line, 0⟩)
    (hbreaks : ∀ b ∈ breaks, isPlainBreak b = true) :
    ∃ p' index', readEmptyLines indentation p = .ok ((breaks, n), p') ∧
      p'.Shows ⟨rest, index', line + breaks.length, n⟩ := by
  have hfuel : breaks.length < p.left + 1 := by
    rw [h.left, List.length_append]
    omega
  obtain ⟨p', index', hgo, hshows⟩ := readEmptyLines_go hle hrest hblank h hbreaks [] 0 hfuel
  refine ⟨p', index', ?_, hshows⟩
  rw [readEmptyLines, hgo, List.nil_append, Nat.zero_max]

end EmptyLines

/-! ### Lines of text -/

/-- One line of a literal block, with its line break and the empty lines behind it. -/
theorem lines_step {indentation : Nat} (breaks : List Char) {b : Char}
    (h : p.Shows ⟨text ++ b :: (breaks ++ (List.replicate n ' ' ++ rest)), index, line,
      indentation⟩) (htext : ∀ c ∈ text, isBreak c = false) (hb : isPlainBreak b = true)
    (hbreaks : ∀ b ∈ breaks, isPlainBreak b = true) (hle : n ≤ indentation)
    (hrest : rest.head?.any isBreak = false)
    (hblank : rest.head?.any isBlank = true → indentation ≠ 0 ∧ n = indentation) :
    ∃ p' index' line', p'.Shows ⟨rest, index', line', n⟩ ∧
      ∀ fuel done last before blankBefore,
        readBlock.lines true indentation (fuel + 1) done last before blankBefore p =
          readBlock.lines true indentation fuel (text :: before :: last :: done) [b] breaks
            (p.rest.head?.any isBlank) p' := by
  have hb' := isBreak_of_isPlainBreak hb
  obtain ⟨p₁, hspan, hshows₁⟩ := Place.Shows.span (fun c => !isBreak c) _ h
    (fun c hc => by rw [htext c hc]; rfl) (by simp [hb'])
  obtain ⟨p₂, hbreak, hshows₂⟩ := Place.Shows.lineBreak hshows₁ hb
  obtain ⟨p₃, index', hempty, hshows₃⟩ :=
    readEmptyLines_eq (.inr hle) hrest hblank _ hshows₂ hbreaks
  refine ⟨p₃, _, _, hshows₃, ?_⟩
  intro fuel done last before blankBefore
  have hcolumn : p.column = indentation := h.column
  have hne : p.rest.isEmpty = false := by
    rw [h.rest]
    simp
  rw [readBlock.lines]
  simp [hcolumn, hne, hspan, hbreak, hempty, bind, Except.bind]

/-! ### Texts of several lines -/

/-- A text of lines that are not empty, with line breaks behind each but perhaps the last, and what
    has to happen to the line breaks at its end. -/
inductive LiteralText : Chomping → List Char → Prop
  | strip {line : List Char} (hne : line ≠ []) (hline : ∀ c ∈ line, isBreak c = false) :
      LiteralText .strip line
  | clip {line : List Char} {b : Char} (hne : line ≠ []) (hline : ∀ c ∈ line, isBreak c = false)
      (hb : isPlainBreak b = true) : LiteralText .clip (line ++ [b])
  | keep {line breaks : List Char} {b : Char} (hne : line ≠ [])
      (hline : ∀ c ∈ line, isBreak c = false) (hb : isPlainBreak b = true) (hmore : breaks ≠ [])
      (hbreaks : ∀ b ∈ breaks, isPlainBreak b = true) : LiteralText .keep (line ++ b :: breaks)
  | more {chomping : Chomping} {line breaks text : List Char} {b : Char} (hne : line ≠ [])
      (hline : ∀ c ∈ line, isBreak c = false) (hb : isPlainBreak b = true)
      (hbreaks : ∀ b ∈ breaks, isPlainBreak b = true) (h : LiteralText chomping text) :
      LiteralText chomping (line ++ b :: (breaks ++ text))

/-- What is left of the line breaks at the end. -/
def Chomping.kept (chomping : Chomping) (last breaks : List Char) : List Char :=
  match chomping with
  | .strip => []
  | .clip => last
  | .keep => last ++ breaks

/-- What a writer adds to end the last line. -/
def Chomping.ending : Chomping → List Char
  | .strip => ['\n']
  | .clip | .keep => []

theorem literalLines_cons (indent : Nat) (hc : isBreak c = false) (cs : List Char) :
    literalLines indent false (c :: cs) = c :: literalLines indent false cs := by
  rw [literalLines, hc]
  rfl

theorem literalLines_line (indent : Nat) {line : List Char} (hline : ∀ c ∈ line, isBreak c = false)
    (rest : List Char) :
    literalLines indent false (line ++ rest) = line ++ literalLines indent false rest := by
  induction line with
  | nil => rfl
  | cons c line ih =>
    obtain ⟨hc, hline⟩ := List.forall_mem_cons.mp hline
    rw [List.cons_append, literalLines_cons indent hc, ih hline, List.cons_append]

theorem literalLines_breaks {breaks : List Char} (hbreaks : ∀ b ∈ breaks, isPlainBreak b = true)
    (b : Char) (hb : isPlainBreak b = true) (broken : Bool) (rest : List Char) :
    literalLines indent broken (b :: (breaks ++ rest)) =
      b :: (breaks ++ literalLines indent true rest) := by
  rw [literalLines, isBreak_of_isPlainBreak hb, if_pos rfl]
  induction breaks with
  | nil => rfl
  | cons d breaks ih =>
    obtain ⟨hd, hbreaks⟩ := List.forall_mem_cons.mp hbreaks
    have ih := List.cons.inj (ih hbreaks)
    rw [List.cons_append, literalLines, isBreak_of_isPlainBreak hd, if_pos rfl, ih.2]
    rfl

theorem literalLines_indented (hc : isBreak c = false) (cs : List Char) :
    literalLines indent true (c :: cs) =
      List.replicate indent ' ' ++ literalLines indent false (c :: cs) := by
  rw [literalLines, literalLines, hc]
  simp [spaces]

theorem length_literalLines (indent : Nat) (broken : Bool) (text : List Char) :
    text.length ≤ (literalLines indent broken text).length := by
  induction text generalizing broken with
  | nil => exact Nat.le_refl 0
  | cons c text ih =>
    rw [literalLines]
    split
    · exact Nat.succ_le_succ (ih true)
    · rw [List.length_append, List.length_cons, List.length_cons]
      have := ih false
      omega

theorem mem_literalLines {broken : Bool} (h : c ∈ literalLines indent broken text) :
    c = ' ' ∨ c ∈ text := by
  induction text generalizing broken with
  | nil => nomatch h
  | cons d text ih =>
    rw [literalLines] at h
    split at h
    · rcases List.mem_cons.mp h with rfl | h
      · exact .inr List.mem_cons_self
      · exact (ih h).imp_right (List.mem_cons_of_mem d)
    · rcases List.mem_append.mp h with h | h
      · split at h
        · exact .inl (List.eq_of_mem_replicate h)
        · nomatch h
      · rcases List.mem_cons.mp h with rfl | h
        · exact .inr List.mem_cons_self
        · exact (ih h).imp_right (List.mem_cons_of_mem d)

theorem getLast?_literalLines (indent : Nat) (broken : Bool) (text : List Char) :
    (literalLines indent broken text).getLast? = text.getLast? := by
  induction text generalizing broken with
  | nil => rfl
  | cons c text ih =>
    rw [literalLines]
    split
    · rw [List.getLast?_cons, List.getLast?_cons, ih]
    · rw [List.getLast?_append, List.getLast?_cons, List.getLast?_cons, ih]
      rfl

namespace LiteralText

theorem exists_cons (h : LiteralText chomping text) :
    ∃ c cs, text = c :: cs ∧ isBreak c = false := by
  have hfirst : ∀ {line : List Char}, line ≠ [] → (∀ c ∈ line, isBreak c = false) →
      ∀ rest, ∃ c cs, line ++ rest = c :: cs ∧ isBreak c = false := by
    intro line hne hline rest
    obtain ⟨c, cs, rfl⟩ := List.exists_cons_of_ne_nil hne
    exact ⟨c, cs ++ rest, rfl, hline c List.mem_cons_self⟩
  cases h with
  | strip hne hline =>
    obtain ⟨c, cs, heq, hc⟩ := hfirst hne hline []
    exact ⟨c, cs, by rw [← heq, List.append_nil], hc⟩
  | clip hne hline hb => exact hfirst hne hline _
  | keep hne hline hb hmore hbreaks => exact hfirst hne hline _
  | more hne hline hb hbreaks h => exact hfirst hne hline _

/-- A text without characters that have to be escaped is of this form, if its first line is not
    empty. -/
theorem exists_of_plain {cs : List Char} (hne : cs ≠ []) (hfirst : cs.head?.any isBreak = false)
    (hchars : ∀ c ∈ cs, isBreak c = true → isPlainBreak c = true) :
    ∃ chomping, LiteralText chomping cs := by
  induction hlen : cs.length using Nat.strongRecOn generalizing cs with
  | ind k ih =>
    obtain ⟨line, gap, rest, rfl, hline, hgap, hrest, hall⟩ := exists_word isBreak cs
    have hne' : line ≠ [] := by
      intro hnil
      cases gap with
      | nil => exact hne (by rw [hnil, hall rfl]; rfl)
      | cons b gap =>
        rw [hnil] at hfirst
        have hb : isBreak b = false := hfirst
        rw [hgap b List.mem_cons_self] at hb
        nomatch hb
    cases gap with
    | nil =>
      rw [hall rfl, List.append_nil, List.append_nil]
      exact ⟨.strip, .strip hne' hline⟩
    | cons b breaks =>
      have hplain : ∀ c ∈ b :: breaks, isPlainBreak c = true := fun c hc =>
        hchars c (List.mem_append_right _ (List.mem_append_left _ hc)) (hgap c hc)
      obtain ⟨hb, hbreaks⟩ := List.forall_mem_cons.mp hplain
      by_cases hnil : rest = []
      · rw [hnil, List.append_nil]
        by_cases hone : breaks = []
        · rw [hone]
          exact ⟨.clip, .clip hne' hline hb⟩
        · exact ⟨.keep, .keep hne' hline hb hone hbreaks⟩
      · obtain ⟨chomping, h⟩ := ih rest.length (by
          rw [← hlen, List.length_append, List.length_append, List.length_cons]
          omega) hnil hrest
          (fun c hc => hchars c (List.mem_append_right _ (List.mem_append_right _ hc))) rfl
        exact ⟨chomping, .more hne' hline hb hbreaks h⟩

end LiteralText

theorem head_any_or (h : text.head?.any (fun c => isBlank c || isBreak c) = false) :
    text.head?.any isBreak = false ∧ text.head?.any isBlank = false := by
  cases text with
  | nil => exact ⟨rfl, rfl⟩
  | cons c cs => exact (Bool.or_eq_false_iff.mp h).symm

/-- The last line of a literal block. Behind it the column is too small. -/
theorem lines_last (breaks : List Char) {b : Char} (hn : n < indent)
    (hp : p.Shows ⟨text ++ b :: (breaks ++ (List.replicate n ' ' ++ rest)), index, line, indent⟩)
    (htext : ∀ c ∈ text, isBreak c = false) (hb : isPlainBreak b = true)
    (hbreaks : ∀ b ∈ breaks, isPlainBreak b = true)
    (hrest : rest.head?.any (fun c => isBlank c || isBreak c) = false) (fuel : Nat)
    (done : List (List Char)) (last before : List Char) (blankBefore : Bool) :
    ∃ p' index' line', readBlock.lines true indent (fuel + 2) done last before blankBefore p =
        .ok ((text :: before :: last :: done, [b], breaks), p') ∧
      p'.Shows ⟨rest, index', line', n⟩ := by
  obtain ⟨hbreak, hblank⟩ := head_any_or hrest
  have hblank' : rest.head?.any isBlank = true → indent ≠ 0 ∧ n = indent := fun htrue => by
    rw [hblank] at htrue
    nomatch htrue
  obtain ⟨q, index', line', hq, hstep⟩ :=
    lines_step breaks hp htext hb hbreaks (Nat.le_of_lt hn) hbreak hblank'
  have hcolumn : q.column = n := hq.column
  have hne : ¬ n = indent := by omega
  refine ⟨q, index', line', ?_, hq⟩
  rw [hstep, readBlock.lines]
  simp [hcolumn, hne]

/-- The lines of a literal block are read back, up to a line that is indented by less. -/
theorem lines_eq (hindent : indent ≠ 0) (h : LiteralText chomping text) (hn : n < indent)
    {next : List Char} (hnext : next.head?.any (fun c => isBlank c || isBreak c) = false)
    (hp : p.Shows ⟨literalLines indent false text ++ (chomping.ending ++
      (List.replicate n ' ' ++ next)), index, line, indent⟩) (done : List (List Char))
    (last before : List Char) (blankBefore : Bool) {fuel : Nat}
    (hfuel : text.length + chomping.ending.length < fuel) :
    ∃ p' index' line' done' last' breaks',
      readBlock.lines true indent fuel done last before blankBefore p =
        .ok ((done', last', breaks'), p') ∧
      done'.reverse.flatten ++ chomping.kept last' breaks' =
        done.reverse.flatten ++ (last ++ (before ++ text)) ∧
      p'.Shows ⟨next, index', line', n⟩ := by
  -- In all cases but the last one there is one line, and they differ in the breaks behind it.
  induction h generalizing p index line done last before blankBefore fuel with
  | @strip text hne hline =>
    have hpos := List.length_pos_iff.mpr hne
    obtain ⟨fuel, rfl⟩ : ∃ n, fuel = n + 2 := ⟨fuel - 2, by omega⟩
    have hwritten := literalLines_line indent hline []
    rw [List.append_nil] at hwritten
    rw [hwritten] at hp
    simp only [literalLines, List.append_nil] at hp
    obtain ⟨q, _, _, hgo, hq⟩ := lines_last [] hn hp hline rfl (List.forall_mem_nil _) hnext fuel
      done last before blankBefore
    refine ⟨q, _, _, _, _, _, hgo, ?_, hq⟩
    simp [Chomping.kept]
  | @clip text b hne hline hb =>
    have hpos := List.length_pos_iff.mpr hne
    rw [List.length_append, List.length_cons] at hfuel
    obtain ⟨fuel, rfl⟩ : ∃ n, fuel = n + 2 := ⟨fuel - 2, by omega⟩
    have hone : literalLines indent false [b] = [b] :=
      @literalLines_breaks indent [] (List.forall_mem_nil _) b hb false []
    rw [literalLines_line _ hline, hone, List.append_assoc] at hp
    obtain ⟨q, _, _, hgo, hq⟩ := lines_last [] hn hp hline hb (List.forall_mem_nil _) hnext fuel
      done last before blankBefore
    refine ⟨q, _, _, _, _, _, hgo, ?_, hq⟩
    simp [Chomping.kept]
  | @keep text breaks b hne hline hb hmore hbreaks =>
    have hpos := List.length_pos_iff.mpr hne
    rw [List.length_append, List.length_cons] at hfuel
    obtain ⟨fuel, rfl⟩ : ∃ n, fuel = n + 2 := ⟨fuel - 2, by omega⟩
    rw [literalLines_line _ hline, ← List.append_nil breaks, literalLines_breaks hbreaks b hb] at hp
    simp only [literalLines, List.append_nil, List.append_assoc, List.cons_append] at hp
    obtain ⟨q, _, _, hgo, hq⟩ := lines_last breaks hn hp hline hb hbreaks hnext fuel done last before
      blankBefore
    refine ⟨q, _, _, _, _, _, hgo, ?_, hq⟩
    simp [Chomping.kept]
  | @more chomping text breaks rest b hne hline hb hbreaks h ih =>
    obtain _ | fuel := fuel
    · omega
    obtain ⟨c, cs, rfl, hc⟩ := h.exists_cons
    rw [literalLines_line _ hline, literalLines_breaks hbreaks b hb, literalLines_indented hc] at hp
    simp only [List.append_assoc, List.cons_append] at hp
    have hmore := literalLines_cons indent hc cs
    obtain ⟨q, index', line', hq, hstep⟩ := lines_step breaks hp hline hb hbreaks (Nat.le_refl _)
      (by rw [hmore]; exact hc) (fun _ => ⟨hindent, rfl⟩)
    have hfuel' : (c :: cs).length + chomping.ending.length < fuel := by
      rw [List.length_append, List.length_cons, List.length_append] at hfuel
      omega
    obtain ⟨p', index'', line'', done', last', breaks', hgo, htext, hp'⟩ := ih hq
      (text :: before :: last :: done) [b] breaks (p.rest.head?.any isBlank) hfuel'
    refine ⟨p', index'', line'', done', last', breaks', (hstep _ _ _ _ _).trans hgo, ?_, hp'⟩
    rw [htext]
    simp

/-- The last characters of a text tell what has to happen to its line breaks. -/
theorem LiteralText.last (h : LiteralText chomping text) :
    match chomping with
    | .strip => ∃ c l, text.reverse = c :: l ∧ isBreak c = false
    | .clip => ∃ c d l, text.reverse = c :: d :: l ∧ isBreak c = true ∧ isBreak d = false
    | .keep => ∃ c d l, text.reverse = c :: d :: l ∧ isBreak c = true ∧ isBreak d = true := by
  have hlast : ∀ {line : List Char}, line ≠ [] → (∀ c ∈ line, isBreak c = false) →
      ∃ c l, line.reverse = c :: l ∧ isBreak c = false := by
    intro line hne hline
    obtain ⟨c, l, heq⟩ := List.exists_cons_of_ne_nil (mt List.reverse_eq_nil_iff.mp hne)
    refine ⟨c, l, heq, hline c ?_⟩
    rw [← List.mem_reverse, heq]
    exact List.mem_cons_self
  induction h with
  | strip hne hline => exact hlast hne hline
  | @clip line b hne hline hb =>
    obtain ⟨c, l, heq, hc⟩ := hlast hne hline
    exact ⟨b, c, l, by simp [heq], isBreak_of_isPlainBreak hb, hc⟩
  | @keep line breaks b hne hline hb hmore hbreaks =>
    obtain ⟨c, l, heq⟩ := List.exists_cons_of_ne_nil (mt List.reverse_eq_nil_iff.mp hmore)
    have hall : ∀ d ∈ c :: l, isBreak d = true := fun d hd => by
      rw [← heq, List.mem_reverse] at hd
      exact isBreak_of_isPlainBreak (hbreaks d hd)
    have hc := hall c List.mem_cons_self
    cases l with
    | nil => exact ⟨c, b, line.reverse, by simp [heq], hc, isBreak_of_isPlainBreak hb⟩
    | cons d l =>
      exact ⟨c, d, l ++ b :: line.reverse, by simp [heq], hc, hall d (by simp)⟩
  | @more chomping line breaks text b hne hline hb hbreaks h ih =>
    cases chomping with
    | strip =>
      obtain ⟨c, l, heq, hc⟩ := ih
      exact ⟨c, l ++ (breaks.reverse ++ b :: line.reverse), by simp [heq], hc⟩
    | clip =>
      obtain ⟨c, d, l, heq, hc⟩ := ih
      exact ⟨c, d, l ++ (breaks.reverse ++ b :: line.reverse), by simp [heq], hc⟩
    | keep =>
      obtain ⟨c, d, l, heq, hc⟩ := ih
      exact ⟨c, d, l ++ (breaks.reverse ++ b :: line.reverse), by simp [heq], hc⟩

/-- The last line of a text is ended by its own line break, or by one that is added. -/
theorem LiteralText.ending_eq (h : LiteralText chomping text) :
    (if text.getLast?.any isBreak then [] else ['\n']) = chomping.ending := by
  have hlast := h.last
  rw [← List.head?_reverse]
  cases chomping with
  | strip =>
    obtain ⟨c, l, heq, hc⟩ := hlast
    simp [heq, hc, Chomping.ending]
  | clip =>
    obtain ⟨c, d, l, heq, hc, -⟩ := hlast
    simp [heq, hc, Chomping.ending]
  | keep =>
    obtain ⟨c, d, l, heq, hc, -⟩ := hlast
    simp [heq, hc, Chomping.ending]

/-- The sign in the header of a text tells what has to happen to its last line breaks. -/
theorem toList_literalHeader (h : LiteralText chomping text)
    (hblank : text.head?.any isBlank = false) (step : Nat) :
    (literalHeader step text).toList = '|' :: chomping.sign := by
  have hhint : (text.head?.any fun c => c == ' ' || isBreak c) = false := by
    obtain ⟨c, cs, rfl, hc⟩ := h.exists_cons
    have hspace : c ≠ ' ' := by
      rintro rfl
      nomatch hblank
    simp [hspace, hc]
  have hlast := h.last
  rw [literalHeader, hhint]
  cases chomping with
  | strip =>
    obtain ⟨c, l, heq, hc⟩ := hlast
    rw [heq]
    cases l <;> simp [hc, Chomping.sign]
  | clip =>
    obtain ⟨c, d, l, heq, hc, hd⟩ := hlast
    simp [heq, hc, hd, Chomping.sign]
  | keep =>
    obtain ⟨c, d, l, heq, hc, hd⟩ := hlast
    simp [heq, hc, hd, Chomping.sign]

/-! ### Literal blocks -/

theorem readBlock_eq {outer : Int} (houter : outer < indent) (hindent : indent ≠ 0)
    (h : LiteralText chomping text) (hblank : text.head?.any isBlank = false) (hn : n < indent)
    {next : List Char} (hnext : next.head?.any (fun c => isBlank c || isBreak c) = false)
    (hp : p.Shows ⟨chomping.sign ++ '\n' :: (literalLines indent true text ++ (chomping.ending ++
      (List.replicate n ' ' ++ next))), index, line, column⟩) :
    ∃ p' index' line', readBlock true outer p = .ok (String.ofList text, p') ∧
      p'.Shows ⟨next, index', line', n⟩ := by
  obtain ⟨c, cs, rfl, hc⟩ := h.exists_cons
  have hcb : isBlank c = false := hblank
  have hmore := literalLines_cons indent hc cs
  obtain ⟨p₁, index₁, hheader, hshows₁⟩ := readBlockHeader_eq hp
  rw [literalLines_indented hc, List.append_assoc] at hshows₁
  obtain ⟨p₂, index₂, hempty, hshows₂⟩ := readEmptyLines_eq (.inl rfl)
    (by rw [hmore]; exact hc) (fun htrue => by
      rw [hmore] at htrue
      have : isBlank c = true := htrue
      rw [hcb] at this
      nomatch this) [] hshows₁ (List.forall_mem_nil _)
  obtain ⟨p₃, hneed, hshows₃⟩ := hshows₂.need 1
  have hfuel : (c :: cs).length + chomping.ending.length < p₃.left + 1 := by
    have hlong := length_literalLines indent false (c :: cs)
    rw [hshows₃.left, List.length_append, List.length_append]
    omega
  obtain ⟨p', index', line', done', last', breaks', hlines, htext, hshows'⟩ :=
    lines_eq hindent h hn hnext hshows₃ [] [] [] false hfuel
  have hmax : max (max indent (outer + 1).toNat) 1 = indent := by omega
  refine ⟨p', index', line', ?_, hshows'⟩
  rw [readBlock, hheader]
  simp only [bind, Except.bind, if_true, hempty, hmax, hneed, hlines]
  have htext' : done'.reverse.flatten ++ chomping.kept last' breaks' = c :: cs := by
    rw [htext]
    rfl
  rw [← htext']
  cases chomping <;> rfl

end ClassAudit.Yaml
