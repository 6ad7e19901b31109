import ClassAudit.Proofs.Yaml.Node
import ClassAudit.Proofs.Yaml.Source

/-! # Documents read back

    The document of a record is read back as a mapping with the fields of the record. This covers
    fields with texts, truth values and lists of records, to any depth that a reader allows.
-/

namespace ClassAudit.Yaml

open TokenStream

variable {step column height : Nat}
variable {fields : List (String × Value)} {kinds : List TokenKind}

/-- A value is read back from what is written of it behind the colon of a field at a column. -/
structure Laid (step column height : Nat) (v : Value) : Prop where
  spoken : Spoken column height (v.written step column false).toList v.kinds
  yields : Yields v.kinds v.shownBy

/-- Whether a name is a word of letters, digits and underscores that stands for no other value, and
    is short enough for a key. -/
def isFieldName (name : String) : Bool :=
  !name.toList.isEmpty && name.toList.all isNameChar && name.toList.length ≤ 1024 &&
    impliedTag name .plain == "!!str"

/-- A field is read back. -/
structure LaidField (step column height : Nat) (field : String × Value) : Prop where
  name : isFieldName field.1 = true
  value : Laid step column height field.2

namespace LaidField

variable {field : String × Value} (h : LaidField step column height field)
include h

theorem name_ne_nil : field.1.toList ≠ [] := by
  have hname := h.name
  simp only [isFieldName, Bool.and_eq_true, Bool.not_eq_true', List.isEmpty_eq_false_iff] at hname
  exact hname.1.1.1

theorem letters : ∀ c ∈ field.1.toList, isNameChar c = true := by
  have hname := h.name
  simp only [isFieldName, Bool.and_eq_true, List.all_eq_true] at hname
  exact hname.1.1.2

theorem short : field.1.toList.length ≤ 1024 := by
  have hname := h.name
  simp only [isFieldName, Bool.and_eq_true, decide_eq_true_eq] at hname
  exact hname.1.2

theorem tag : impliedTag field.1 .plain = "!!str" := by
  have hname := h.name
  simp only [isFieldName, Bool.and_eq_true, beq_iff_eq] at hname
  exact hname.2

end LaidField

theorem Laid.mono {v : Value} {height' : Nat} (h : Laid step column height v)
    (hle : height ≤ height') : Laid step column height' v :=
  ⟨h.spoken.mono hle, h.yields⟩

theorem LaidField.mono {field : String × Value} {height' : Nat}
    (h : LaidField step column height field) (hle : height ≤ height') :
    LaidField step column height' field :=
  { h with value := h.value.mono hle }

/-! ### Scalars -/

theorem lt_inner (hstep : step ≠ 0) (column : Nat) : column < inner step column false := by
  rw [inner, if_neg Bool.false_ne_true]
  have hdiv := Nat.div_add_mod (column + step) step
  have hmod := Nat.mod_lt (column + step) (Nat.pos_of_ne_zero hstep)
  omega

theorem laid_text (hstep : step ≠ 0) {s : ByteString} (h : showsIndentation s = true) :
    Laid step column 0 (.text s) :=
  ⟨spoken_text (lt_inner hstep column) h, yields_text s⟩

theorem laid_bool (b : Bool) : Laid step column 0 (.bool b) := by
  refine ⟨?_, yields_bool b⟩
  have hspoken : Spoken column 0 (' ' :: ((toString b).toList ++ ['\n']))
      [.scalar (String.ofList (toString b).toList) .plain] := by
    refine spoken_plain ?_ ?_ <;> cases b <;> decide
  have htext : ((Value.bool b).written step column false).toList =
      ' ' :: ((toString b).toList ++ ['\n']) := by
    simp [Value.written]
  rw [htext, Value.kinds]
  rwa [String.ofList_toList] at hspoken

/-! ### Records -/

/-- The characters of a field, where its indentation is not counted in. -/
def fieldText (step column : Nat) (field : String × Value) : List Char :=
  field.1.toList ++ ':' :: (field.2.written step column false).toList

theorem toList_join_writtenFields (fields : List (String × Value)) :
    (String.join (Value.writtenFields step column fields)).toList =
      fields.flatMap fun f => List.replicate column ' ' ++ fieldText step column f := by
  rw [String.toList_join]
  induction fields with
  | nil => rfl
  | cons field fields ih =>
    obtain ⟨name, value⟩ := field
    rw [Value.writtenFields, List.flatMap_cons, List.flatMap_cons, ih]
    simp [fieldText, lineStart, spaces]

theorem LaidField.entry {field : String × Value} (h : LaidField step column height field) :
    Entry .blockMappingStart column height (fieldText step column field)
      (.key :: .scalar field.1 .plain :: .value :: field.2.kinds) := by
  have hentry := Entry.field h.value.spoken h.name_ne_nil h.letters h.short
  rwa [String.ofList_toList] at hentry

/-- The characters and the tokens of each field. -/
def fieldEntries (step column : Nat) (fields : List (String × Value)) :
    List (List Char × List TokenKind) :=
  fields.map fun f =>
    (fieldText step column f, .key :: .scalar f.1 .plain :: .value :: f.2.kinds)

theorem entry_of_mem_fieldEntries (h : ∀ f ∈ fields, LaidField step column height f) :
    ∀ e ∈ fieldEntries step column fields, Entry .blockMappingStart column height e.1 e.2 := by
  intro e he
  obtain ⟨f, hf, rfl⟩ := List.mem_map.mp he
  exact (h f hf).entry

theorem flatten_fieldEntries (fields : List (String × Value)) :
    ((fieldEntries step column fields).map Prod.snd).flatten = Value.fieldKinds fields := by
  induction fields with
  | nil => rfl
  | cons field fields ih =>
    obtain ⟨name, value⟩ := field
    rw [Value.fieldKinds, ← ih]
    rfl

theorem blockText_fieldEntries (field : String × Value) (fields : List (String × Value)) :
    blockText column ((fieldEntries step column (field :: fields)).map Prod.fst) =
      fieldText step column field ++
        (String.join (Value.writtenFields step column fields)).toList := by
  rw [toList_join_writtenFields]
  simp [fieldEntries, blockText, List.flatMap_map]

theorem kinds_record (hne : fields ≠ []) :
    (Value.record fields).kinds =
      .blockMappingStart :: (Value.fieldKinds fields ++ [.blockEnd]) := by
  obtain ⟨field, fields, rfl⟩ := List.exists_cons_of_ne_nil hne
  rw [Value.kinds]

/-- The fields of a record make a block. -/
theorem block_record (hne : fields ≠ []) (h : ∀ f ∈ fields, LaidField step column height f) :
    Block column height (blockText column ((fieldEntries step column fields).map Prod.fst))
      (Value.record fields).kinds := by
  have hne' : fieldEntries step column fields ≠ [] := by simpa [fieldEntries] using hne
  have hblock := Block.of_entries hne' (entry_of_mem_fieldEntries h)
  rwa [flatten_fieldEntries, ← kinds_record hne] at hblock

theorem LaidField.yields_record (hne : fields ≠ [])
    (h : ∀ f ∈ fields, LaidField step column height f) :
    Yields (Value.record fields).kinds (Value.record fields).shownBy :=
  Yaml.yields_record hne (fun f hf => (h f hf).tag) (fun f hf => (h f hf).value.yields)

/-! ### Lists -/

/-- A record that is read back as an item of a list whose dashes stand at a column. -/
structure LaidItem (step column height : Nat) (item : Value) : Prop where
  exists_fields : ∃ fields, fields ≠ [] ∧ item = .record fields ∧
    ∀ f ∈ fields, LaidField step (column + 2) height f

theorem LaidItem.entry {item : Value} (h : LaidItem step column height item) (hzero : column ≠ 0) :
    Entry .blockSequenceStart column (height + 1)
      ('-' :: (item.written step column true).toList) (.blockEntry :: item.kinds) := by
  obtain ⟨fields, hne, rfl, hfields⟩ := h.exists_fields
  have hentry := Entry.item (block_record hne hfields) hzero
  obtain ⟨field, fields, rfl⟩ := List.exists_cons_of_ne_nil hne
  rw [blockText_fieldEntries] at hentry
  have htext : ((Value.record (field :: fields)).written step column true).toList =
      ' ' :: (fieldText step (column + 2) field ++
        (String.join (Value.writtenFields step (column + 2) fields)).toList) := by
    obtain ⟨name, value⟩ := field
    simp [Value.written, inner, fieldText]
  rwa [htext]

theorem LaidItem.yields {item : Value} (h : LaidItem step column height item) :
    Yields item.kinds item.shownBy := by
  obtain ⟨fields, hne, rfl, hfields⟩ := h.exists_fields
  exact LaidField.yields_record hne hfields

theorem laid_emptyList : Laid step column 0 (.list []) := by
  refine ⟨?_, yields_list fun v hv => nomatch hv⟩
  have htext : ((Value.list []).written step column false).toList = ' ' :: ['[', ']', '\n'] := by
    rw [Value.written]
    rfl
  rw [htext, Value.kinds]
  refine Spoken.of_scalar (fun rest => rfl) ?_ ?_ ?_
  · intro here n next columns more hhere hn hnext hdepth hmore
    have hbelow := hmore.within (between_within_before_below false (here + 2) n (c := '\n') rfl
      hnext)
    have hclose := Script.step (emits_close rfl (by omega)) hbelow
    have hopen := Script.step (emits_open rfl (by omega) (le_inside hhere)) hclose
    exact hopen
  · exact List.all_eq_true.mp (by decide)
  · decide

def itemEntries (step column : Nat) (items : List Value) : List (List Char × List TokenKind) :=
  items.map fun v => ('-' :: (v.written step column true).toList, .blockEntry :: v.kinds)

theorem flatten_itemEntries (items : List Value) :
    ((itemEntries step column items).map Prod.snd).flatten = Value.itemKinds items := by
  induction items with
  | nil => rfl
  | cons item items ih =>
    rw [Value.itemKinds, ← ih]
    rfl

theorem toList_join_writtenItems {items : List Value} (hne : items ≠ []) :
    (String.join (Value.writtenItems step column items)).toList =
      List.replicate column ' ' ++
        blockText column ((itemEntries step column items).map Prod.fst) := by
  have hall : ∀ items, (String.join (Value.writtenItems step column items)).toList =
      ((itemEntries step column items).map Prod.fst).flatMap
        fun e => List.replicate column ' ' ++ e := by
    intro items
    rw [String.toList_join]
    induction items with
    | nil => rfl
    | cons item items ih =>
      rw [Value.writtenItems, List.flatMap_cons, ih]
      simp [itemEntries, lineStart, spaces]
  obtain ⟨item, items, rfl⟩ := List.exists_cons_of_ne_nil hne
  rw [hall]
  simp [itemEntries, blockText]

/-- A list of records behind a colon. -/
theorem laid_list (hstep : step ≠ 0) {items : List Value}
    (h : ∀ v ∈ items, LaidItem step (inner step column false) height v) :
    Laid step column (height + 2) (.list items) := by
  cases items with
  | nil => exact laid_emptyList.mono (Nat.zero_le _)
  | cons item items =>
    refine ⟨?_, yields_list fun v hv => (h v hv).yields⟩
    have hinner := lt_inner hstep column
    generalize hindent : inner step column false = indent at h hinner
    have hne : itemEntries step indent (item :: items) ≠ [] := by simp [itemEntries]
    have hentries : ∀ e ∈ itemEntries step indent (item :: items),
        Entry .blockSequenceStart indent (height + 1) e.1 e.2 := by
      intro e he
      obtain ⟨v, hv, rfl⟩ := List.mem_map.mp he
      exact (h v hv).entry (by omega)
    have hspoken := (Block.of_entries hne hentries).spoken hinner
    rw [flatten_itemEntries, ← toList_join_writtenItems (List.cons_ne_nil item items)] at hspoken
    have htext : ((Value.list (item :: items)).written step column false).toList =
        '\n' :: (String.join (Value.writtenItems step indent (item :: items))).toList := by
      rw [Value.written, hindent, String.toList_append]
      · rfl
      · simp
    rw [htext, Value.kinds]
    exact hspoken

/-! ### Documents -/

theorem hands_ofSource (source : Source) (hsound : ∀ piece ∈ source.pieces, piece.sound = true)
    (hmark : byteOrderMark ∉ source.chars)
    (hscript : Script (between true 0 source.chars []) kinds) :
    (TokenStream.ofSource source).Hands kinds := by
  have hstart : (between true 0 source.chars []).holds (.ofSource source) :=
    ⟨⟨rfl, rfl, rfl, rfl, rfl⟩, rfl, 0, 0, Place.Shows.start hsound hmark⟩
  exact ⟨_, kinds, 0, hstart, hscript, (List.append_nil kinds).symm⟩

theorem toList_printRecord (hne : fields ≠ []) :
    (printRecord step fields).toList =
      blockText 0 ((fieldEntries step 0 fields).map Prod.fst) := by
  obtain ⟨field, fields, rfl⟩ := List.exists_cons_of_ne_nil hne
  rw [blockText_fieldEntries, printRecord, toList_join_writtenFields, toList_join_writtenFields]
  · simp
  · simp

theorem script_printRecord (hne : fields ≠ []) (h : ∀ f ∈ fields, LaidField step 0 height f)
    (hheight : 1 + height < depthLimit) :
    Script (between true 0 (printRecord step fields).toList [])
      ((Value.record fields).kinds ++ [.streamEnd]) := by
  have hend : Script (before true 0 [] [0]) [.blockEnd, .streamEnd] :=
    .last (emits_end [0] (by simp))
  have hne' : fieldEntries step 0 fields ≠ [] := by simpa [fieldEntries] using hne
  have hentries := entry_of_mem_fieldEntries h
  have hcolumn : ∀ c ∈ ([] : List Nat).head?, c ≤ 0 := by simp
  have hnext : startsToken [] = true := rfl
  have hscript := script_entries hne' hentries hcolumn rfl (Nat.le_refl 0) hnext hheight hend
  have hstarts := (Block.of_entries hne' hentries).starts (List.replicate 0 ' ' ++ [])
  have hbetween := hscript.within (between_within_before true 0 0 hstarts)
  rw [flatten_fieldEntries, ← toList_printRecord hne] at hbetween
  rw [kinds_record hne]
  simpa [entering] using hbetween

theorem parse_of_yields {bytes : List UInt8} {property : Node → Prop} (h : Yields kinds property)
    (hhands : (TokenStream.ofSource (.ofBytes bytes)).Hands (kinds ++ [.streamEnd]))
    (hfuel : kinds.length ≤ 8 * bytes.length + 64) :
    ∃ root, Document.parse bytes = .ok (some ⟨root, [], 0, 8 * bytes.length + 64⟩) ∧
      property root := by
  have hroot : Reading.Gives false (Reading.root (8 * bytes.length + 64)) kinds
      fun node => ∃ root, node = some root ∧ property root := by
    have hread : Reading.Gives true (do
        let node ← Reading.node true false (8 * bytes.length + 64)
        let _ ← Reading.peek
        return some node) kinds fun node => ∃ root, node = some root ∧ property root :=
      (h.gives false hfuel).last fun root hroot => .peek fun _ _ => .pure ⟨root, rfl, hroot⟩
    obtain ⟨kind, rest, rfl, hstarts⟩ := h.exists_cons
    rw [Reading.root]
    refine .peek fun t ht => ?_
    rw [ht _ rfl]
    cases kind <;> first | exact hread | cases hstarts
  obtain ⟨_, s, hrun, -, root, rfl, hproperty⟩ := hroot
    ⟨.ofSource (.ofBytes bytes), Reading.standardHandles, [], [], 0, 0⟩ _ rfl hhands nofun
  refine ⟨root, ?_, hproperty⟩
  simp only [Document.parse, StateT.run, hrun]
  rfl

/-- Whether a mapping without entries has been read. -/
def isEmptyRecord : Except SyntaxError (Option Document) → Bool
  | .ok (some ⟨.mapping _ tag [], [], 0, _⟩) => tag == "!!map"
  | _ => false

/-- The document without fields. -/
theorem parse_emptyRecord :
    ∃ root depth, Document.parse (Text.utf8 "\x7b\x7d\n") = .ok (some ⟨root, [], 0, depth⟩) ∧
      (Value.record []).shownBy root := by
  have hbytes : Text.utf8 "\x7b\x7d\n" = [0x7b, 0x7d, 0x0a] := by
    rw [Text.utf8_eq_flatMap]
    decide
  have hparse : isEmptyRecord (Document.parse [0x7b, 0x7d, 0x0a]) = true := by decide +kernel
  rw [hbytes]
  unfold isEmptyRecord at hparse
  split at hparse
  · next line tag depth heq =>
    rw [eq_of_beq hparse] at heq
    exact ⟨_, depth, heq, line, [], rfl, rfl⟩
  · cases hparse

/-- A text whose tokens give a node is the document with that node. -/
theorem parse_of_script {c : Char} {cs : List Char} (hc : c.toNat < 0x80)
    (hwritten : ∀ d ∈ c :: cs, isWritten d = true) {property : Node → Prop}
    (h : Yields kinds property)
    (hscript : Script (between true 0 (c :: cs) []) (kinds ++ [.streamEnd]))
    (hlength : kinds.length ≤ 4 * (c :: cs).length) :
    ∃ root depth, Document.parse ((c :: cs).flatMap String.utf8EncodeChar) =
        .ok (some ⟨root, [], 0, depth⟩) ∧ property root := by
  obtain ⟨pieces, hsource, hsound⟩ := Source.ofBytes_utf8 hc
    (fun d hd => (Bool.and_eq_true_iff.mp (hwritten d hd)).1)
  have hmark : byteOrderMark ∉ c :: cs := fun hmem => by
    have := hwritten _ hmem
    exact absurd this (by decide)
  have hhands := hands_ofSource ⟨c :: cs, pieces⟩ hsound hmark hscript
  rw [← hsource] at hhands
  have hlong := Text.length_le_flatMap (c :: cs)
  obtain ⟨root, hparse, hroot⟩ := parse_of_yields h hhands (by omega)
  exact ⟨root, _, hparse, hroot⟩

theorem parse_printRecord (h : ∀ f ∈ fields, LaidField step 0 height f)
    (hheight : 1 + height < depthLimit) :
    ∃ root depth, Document.parse (Text.utf8 (printRecord step fields)) =
        .ok (some ⟨root, [], 0, depth⟩) ∧ (Value.record fields).shownBy root := by
  by_cases hne : fields = []
  · rw [hne]
    exact parse_emptyRecord
  · have hentries := entry_of_mem_fieldEntries h
    have hwritten : ∀ c ∈ (printRecord step fields).toList, isWritten c = true := by
      rw [toList_printRecord hne]
      exact written_blockText hentries
    have hscript := script_printRecord hne h hheight
    have hlength : (Value.record fields).kinds.length ≤ 4 * (printRecord step fields).toList.length := by
      rw [toList_printRecord hne]
      exact (block_record hne h).short
    obtain ⟨c, cs, hcs, hc⟩ : ∃ c cs, (printRecord step fields).toList = c :: cs ∧
        isNameChar c = true := by
      obtain ⟨field, fields, rfl⟩ := List.exists_cons_of_ne_nil hne
      have hfield := h field List.mem_cons_self
      obtain ⟨c, name, hname⟩ := List.exists_cons_of_ne_nil hfield.name_ne_nil
      rw [toList_printRecord hne, blockText_fieldEntries, fieldText, hname]
      exact ⟨c, _, rfl, hfield.letters c (by rw [hname]; exact List.mem_cons_self)⟩
    rw [Text.utf8_eq_flatMap]
    rw [hcs] at hwritten hscript hlength ⊢
    exact parse_of_script (Nat.lt_of_le_of_lt (toNat_of_isNameChar hc).2 (by decide)) hwritten
      (LaidField.yields_record hne h) hscript hlength

end ClassAudit.Yaml
