import ClassAudit.Proofs.Yaml.Scalar.Token

/-! # What written values say

    The tokens that the stream finds in a value as it is written behind the colon of a field or the
    dash of an item. A value ends with its last line, so that it says the same whatever follows it
    on the next one.

    * `Spoken` is about a value behind a colon, `Entry` about a field or an item with its mark, and
      `Block` about all entries of a block collection.
    * `Fits` says for each form which texts are read back from it.
-/

namespace ClassAudit.Yaml

variable {c : Char} {column height : Nat} {chars : List Char} {kinds : List TokenKind}
  {start : TokenKind} {entries : List (List Char × List TokenKind)}

open TokenStream

/-! ### Values, entries and blocks -/

/-- A character that may stand in what is written. -/
def isWritten (c : Char) : Bool :=
  isAllowed c && c != byteOrderMark

theorem isWritten_of_isPrintable (h : isPrintable c = true) : isWritten c = true := by
  have hmark : c ≠ byteOrderMark := by
    rintro rfl
    nomatch h
  simp only [isPrintable, Bool.or_eq_true, Bool.and_eq_true, beq_iff_eq, bne_iff_ne,
    decide_eq_true_eq] at h
  simp only [isWritten, isAllowed, Bool.or_eq_true, Bool.and_eq_true, beq_iff_eq, bne_iff_ne,
    decide_eq_true_eq]
  refine ⟨?_, hmark⟩
  omega

theorem toNat_of_isAlpha (h : c.isAlpha = true) : 0x41 ≤ c.toNat ∧ c.toNat ≤ 0x7a := by
  have h : (decide ('A'.val ≤ c.val ∧ c.val ≤ 'Z'.val) ||
      decide ('a'.val ≤ c.val) && decide (c.val ≤ 'z'.val)) = true := h
  simp only [Bool.or_eq_true, Bool.and_eq_true, decide_eq_true_eq, UInt32.le_iff_toNat_le] at h
  change (65 ≤ c.toNat ∧ c.toNat ≤ 90) ∨ (97 ≤ c.toNat ∧ c.toNat ≤ 122) at h
  omega

theorem toNat_of_isNameChar (h : isNameChar c = true) : 0x30 ≤ c.toNat ∧ c.toNat ≤ 0x7a := by
  simp only [isNameChar, Char.isAlphanum, Bool.or_eq_true, beq_iff_eq] at h
  rcases h with (h | h) | rfl
  · have := toNat_of_isAlpha h
    omega
  · simp only [Char.isDigit, Bool.and_eq_true, decide_eq_true_eq, ge_iff_le,
      UInt32.le_iff_toNat_le] at h
    change 48 ≤ c.toNat ∧ c.toNat ≤ 57 at h
    omega
  · decide

theorem isPrintable_of_isNameChar (h : isNameChar c = true) : isPrintable c = true := by
  have hname := toNat_of_isNameChar h
  have hrange : 0x20 ≤ c.toNat ∧ c.toNat ≤ 0x7e := by omega
  simp [isPrintable, hrange]

theorem isWritten_of_isNameChar (h : isNameChar c = true) : isWritten c = true :=
  isWritten_of_isPrintable (isPrintable_of_isNameChar h)

theorem isSpecial_of_isNameChar (h : isNameChar c = true) : isSpecial c = false := by
  rw [isSpecial, isPrintable_of_isNameChar h, Bool.not_true, Bool.and_false]

/-- The characters behind the colon of a field at a column say some tokens. No more than `height`
    block collections lie inside each other in them. -/
structure Spoken (column height : Nat) (chars : List Char) (kinds : List TokenKind) : Prop where
  script : ∀ {here n : Nat} {next : List Char} {columns : List Nat} {more : List TokenKind},
    column < here → n ≤ column → startsToken next = true →
    (column :: columns).length + height < depthLimit →
    Script (before true n next (column :: columns)) more →
    Script (between false here (chars ++ (List.replicate n ' ' ++ next)) (column :: columns))
      (kinds ++ more)
  follows : ∀ rest, endsWord (chars ++ rest) = true ∧ noComment (chars ++ rest) = true
  written : ∀ c ∈ chars, isWritten c = true
  short : kinds.length ≤ 4 * chars.length

/-- The characters of one entry of a block collection at a column say some tokens. The first entry
    starts the collection. -/
structure Entry (start : TokenKind) (column height : Nat) (chars : List Char)
    (kinds : List TokenKind) : Prop where
  script : ∀ {n : Nat} {next : List Char} {columns outer : List Nat} {more : List TokenKind},
    (∀ c ∈ columns.head?, c ≤ column) → entered columns column = column :: outer → n ≤ column →
    startsToken next = true → (column :: outer).length + height < depthLimit →
    Script (before true n next (column :: outer)) more →
    Script (before true column (chars ++ (List.replicate n ' ' ++ next)) columns)
      (entering start columns column ++ (kinds ++ more))
  starts : ∀ rest, startsToken (chars ++ rest) = true
  written : ∀ c ∈ chars, isWritten c = true
  short : kinds.length + 2 ≤ 4 * chars.length

/-- The characters of a block collection at a column say some tokens. -/
structure Block (column height : Nat) (chars : List Char) (kinds : List TokenKind) : Prop where
  script : ∀ {n : Nat} {next : List Char} {columns : List Nat} {more : List TokenKind},
    (∀ c ∈ columns.head?, c < column) → n < column → startsToken next = true →
    (column :: columns).length + height < depthLimit → Script (before true n next columns) more →
    Script (before true column (chars ++ (List.replicate n ' ' ++ next)) columns) (kinds ++ more)
  starts : ∀ rest, startsToken (chars ++ rest) = true
  written : ∀ c ∈ chars, isWritten c = true
  short : kinds.length ≤ 4 * chars.length

theorem Spoken.mono {height' : Nat} (h : Spoken column height chars kinds) (hle : height ≤ height') :
    Spoken column height' chars kinds :=
  { h with script := fun hhere hn hnext hdepth => h.script hhere hn hnext (by omega) }

/-! ### Block collections -/

/-- The entries of a block collection, where the indentation of the first is not counted in. -/
def blockText (column : Nat) : List (List Char) → List Char
  | [] => []
  | entry :: entries => entry ++ entries.flatMap fun e => List.replicate column ' ' ++ e

theorem blockText_cons_cons (column : Nat) (entry next : List Char) (entries : List (List Char)) :
    blockText column (entry :: next :: entries) =
      entry ++ (List.replicate column ' ' ++ blockText column (next :: entries)) := by
  simp [blockText]

theorem startsToken_blockText {entry : List Char × List TokenKind}
    (h : Entry start column height entry.1 entry.2) (entries : List (List Char × List TokenKind))
    (rest : List Char) :
    startsToken (blockText column ((entry :: entries).map Prod.fst) ++ rest) = true := by
  rw [List.map_cons, blockText, List.append_assoc]
  exact h.starts _

theorem entered_self (column : Nat) (outer : List Nat) :
    entered (column :: outer) column = column :: outer :=
  if_pos rfl

theorem entering_self (start : TokenKind) (column : Nat) (outer : List Nat) :
    entering start (column :: outer) column = [] :=
  if_pos rfl

theorem length_le_entered (columns : List Nat) (column : Nat) :
    columns.length ≤ (entered columns column).length := by
  unfold entered
  split
  · exact Nat.le_refl _
  · exact Nat.le_succ _

/-- The entries say what each of them says. -/
theorem script_entries (hne : entries ≠ []) (h : ∀ e ∈ entries, Entry start column height e.1 e.2)
    {n : Nat} {next : List Char} {columns outer : List Nat} {more : List TokenKind}
    (hcolumn : ∀ c ∈ columns.head?, c ≤ column)
    (hentered : entered columns column = column :: outer) (hn : n ≤ column)
    (hnext : startsToken next = true) (hdepth : (column :: outer).length + height < depthLimit)
    (hscript : Script (before true n next (column :: outer)) more) :
    Script (before true column (blockText column (entries.map Prod.fst) ++
        (List.replicate n ' ' ++ next)) columns)
      (entering start columns column ++ ((entries.map Prod.snd).flatten ++ more)) := by
  induction entries generalizing columns with
  | nil => exact absurd rfl hne
  | cons entry entries ih =>
    obtain ⟨hentry, hentries⟩ := List.forall_mem_cons.mp h
    cases entries with
    | nil =>
      have hlast := hentry.script hcolumn hentered hn hnext hdepth hscript
      simpa [blockText] using hlast
    | cons entry' entries =>
      -- The entries behind the first one stand in the collection that it has started.
      have hcolumn' : ∀ c ∈ (column :: outer).head?, c ≤ column := fun c hc =>
        Nat.le_of_eq (Option.some.inj hc).symm
      have hrest := ih (List.cons_ne_nil _ _) hentries hcolumn' (entered_self column outer)
      rw [entering_self, List.nil_append] at hrest
      have hstarts := startsToken_blockText (List.forall_mem_cons.mp hentries).1 entries
        (List.replicate n ' ' ++ next)
      have hfirst := hentry.script hcolumn hentered (Nat.le_refl column) hstarts hdepth hrest
      rw [List.map_cons, List.map_cons, blockText_cons_cons, List.append_assoc, List.append_assoc]
      rw [List.map_cons, List.flatten_cons, List.append_assoc]
      exact hfirst

theorem written_blockText (h : ∀ e ∈ entries, Entry start column height e.1 e.2) :
    ∀ c ∈ blockText column (entries.map Prod.fst), isWritten c = true := by
  have hspace : isWritten ' ' = true := rfl
  cases entries with
  | nil => exact fun c hc => nomatch hc
  | cons entry entries =>
    intro c hc
    obtain ⟨hentry, hentries⟩ := List.forall_mem_cons.mp h
    rw [List.map_cons, blockText, List.mem_append, List.mem_flatMap] at hc
    rcases hc with hc | ⟨chars, hchars, hc⟩
    · exact hentry.written c hc
    · rcases List.mem_append.mp hc with hc | hc
      · rw [List.eq_of_mem_replicate hc]
        exact hspace
      · obtain ⟨e, he, rfl⟩ := List.mem_map.mp hchars
        exact (hentries e he).written c hc

theorem length_flatten_le (hne : entries ≠ [])
    (h : ∀ e ∈ entries, Entry start column height e.1 e.2) :
    (entries.map Prod.snd).flatten.length + 2 ≤
      4 * (blockText column (entries.map Prod.fst)).length := by
  induction entries with
  | nil => exact absurd rfl hne
  | cons entry entries ih =>
    obtain ⟨hentry, hentries⟩ := List.forall_mem_cons.mp h
    have hshort := hentry.short
    cases entries with
    | nil => simpa [blockText] using hshort
    | cons entry' entries =>
      have hrest := ih (List.cons_ne_nil _ _) hentries
      simp only [List.map_cons, blockText_cons_cons, List.flatten_cons, List.length_append] at hrest ⊢
      omega

theorem Block.of_entries (hne : entries ≠ [])
    (h : ∀ e ∈ entries, Entry start column height e.1 e.2) :
    Block column height (blockText column (entries.map Prod.fst))
      (start :: ((entries.map Prod.snd).flatten ++ [.blockEnd])) where
  script := by
    intro n next columns more hcolumn hn hnext hdepth hscript
    have hopen : columns.head? ≠ some column := fun heq => by
      have := hcolumn column (by rw [heq]; rfl)
      omega
    have hentered : entered columns column = column :: columns := if_neg hopen
    have hclosed := hscript.opening (before_opens_closed (c := column) hn)
    have hentries := script_entries hne h (fun c hc => Nat.le_of_lt (hcolumn c hc)) hentered
      (Nat.le_of_lt hn) hnext hdepth hclosed
    rw [show entering start columns column = [start] from if_neg hopen] at hentries
    simpa using hentries
  starts := by
    obtain ⟨entry, entries, rfl⟩ := List.exists_cons_of_ne_nil hne
    exact startsToken_blockText (List.forall_mem_cons.mp h).1 entries
  written := written_blockText h
  short := by
    have := length_flatten_le hne h
    rw [List.length_cons, List.length_append]
    exact this

/-- A block collection behind a colon stands on lines of its own. -/
theorem Block.spoken {inner : Nat} (h : Block inner height chars kinds) (hinner : column < inner) :
    Spoken column (height + 1) ('\n' :: (List.replicate inner ' ' ++ chars)) kinds where
  script := by
    intro here n next columns more hhere hn hnext hdepth hscript
    have hcolumn : ∀ c ∈ (column :: columns).head?, c < inner := fun c hc => by
      obtain rfl : column = c := Option.some.inj hc
      exact hinner
    have hblock := h.script hcolumn (by omega) hnext
      (by simp only [List.length_cons] at hdepth ⊢; omega) hscript
    have hbelow := hblock.within (between_within_before_below false here inner (c := '\n') rfl
      (h.starts _))
    simpa using hbelow
  follows rest := ⟨rfl, rfl⟩
  written := by
    intro c hc
    rw [List.mem_cons, List.mem_append] at hc
    rcases hc with rfl | hc | hc
    · rfl
    · rw [List.eq_of_mem_replicate hc]
      rfl
    · exact h.written c hc
  short := by
    have := h.short
    rw [List.length_cons, List.length_append]
    omega

theorem Entry.field {name : List Char} (h : Spoken column height chars kinds) (hne : name ≠ [])
    (hname : ∀ c ∈ name, isNameChar c = true) (hlength : name.length ≤ 1024) :
    Entry .blockMappingStart column height (name ++ ':' :: chars)
      (.key :: .scalar (String.ofList name) .plain :: .value :: kinds) where
  script := by
    intro n next columns outer more hcolumn hentered hn hnext hdepth hscript
    obtain ⟨hends, hcomment⟩ := h.follows (List.replicate n ' ' ++ next)
    have hlimit : columns.length < depthLimit := by
      have hle := length_le_entered columns column
      rw [hentered] at hle
      omega
    have hvalue := h.script (show column < column + name.length + 1 by omega) hn hnext hdepth
      hscript
    rw [← hentered] at hvalue
    have hcolon := Script.step (emits_colon hne hends hcomment hcolumn hlimit) hvalue
    have hkey := Script.step (emits_name hne hname hlength hends hcolumn) hcolon
    simpa using hkey
  starts := by
    obtain ⟨c, name, rfl⟩ := List.exists_cons_of_ne_nil hne
    intro rest
    exact startsToken_of_isNameChar (hname c List.mem_cons_self) _
  written := by
    intro c hc
    rw [List.mem_append, List.mem_cons] at hc
    rcases hc with hc | rfl | hc
    · exact isWritten_of_isNameChar (hname c hc)
    · rfl
    · exact h.written c hc
  short := by
    have hpos := List.length_pos_iff.mpr hne
    have := h.short
    rw [List.length_append, List.length_cons, List.length_cons, List.length_cons, List.length_cons]
    omega

/-- An item: a dash and a block collection that starts on its line. -/
theorem Entry.item (h : Block (column + 2) height chars kinds) (hzero : column ≠ 0) :
    Entry .blockSequenceStart column (height + 1) ('-' :: ' ' :: chars) (.blockEntry :: kinds) where
  script := by
    intro n next columns outer more hcolumn hentered hn hnext hdepth hscript
    have hlimit : columns.length < depthLimit := by
      have hle := length_le_entered columns column
      rw [hentered] at hle
      omega
    have hinner : ∀ c ∈ (column :: outer).head?, c < column + 2 := fun c hc => by
      obtain rfl : column = c := Option.some.inj hc
      omega
    have hblock := h.script hinner (by omega) hnext
      (by simp only [List.length_cons] at hdepth ⊢; omega) hscript
    have hstarts := h.starts (List.replicate n ' ' ++ next)
    have hwithin := hblock.within (between_within_before true (column + 1) 1 hstarts)
    rw [← hentered] at hwithin
    have hcomment : noComment (' ' :: (chars ++ (List.replicate n ' ' ++ next))) = true := by
      have := noComment_of_startsToken hstarts
      simpa [noComment, isBlank] using this
    have hdash := Script.step (emits_dash rfl hcomment hzero hcolumn hlimit) hwithin
    simpa using hdash
  starts rest := rfl
  written := by
    intro c hc
    rw [List.mem_cons, List.mem_cons] at hc
    rcases hc with rfl | rfl | hc
    · rfl
    · rfl
    · exact h.written c hc
  short := by
    have := h.short
    rw [List.length_cons, List.length_cons, List.length_cons]
    omega

end ClassAudit.Yaml
