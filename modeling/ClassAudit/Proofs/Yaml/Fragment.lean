import ClassAudit.Proofs.Yaml.Number

/-! # Documents cut off at their end

    Where the last field of a record is a word, the document is read back also without the line
    feed at its end, and with one more in front.
-/

namespace ClassAudit.Yaml

open TokenStream

variable {step height : Nat} {fields : List (String × Value)} {name : String} {v : Value}
  {word : List Char}

/-- The document of a record whose last field is a word, up to the end of the word. -/
def fragment (step : Nat) (fields : List (String × Value)) (name : String) (word : List Char) :
    List Char :=
  blockText 0 ((fieldEntries step 0 fields).map Prod.fst) ++ (name.toList ++ ':' :: ' ' :: word)

theorem toList_printRecord_append (hne : fields ≠ []) (h : LaidWord v word) :
    (printRecord step (fields ++ [(name, v)])).toList = fragment step fields name word ++ ['\n'] := by
  obtain ⟨field, fields, rfl⟩ := List.exists_cons_of_ne_nil hne
  rw [toList_printRecord (by simp), fragment, List.cons_append, blockText_fieldEntries,
    blockText_fieldEntries, toList_join_writtenFields, toList_join_writtenFields]
  simp [fieldText, h.written]

/-- The last field, at the end of the text. -/
theorem script_lastField (hname : isFieldName name = true) (h : LaidWord v word) :
    Script (before true 0 (name.toList ++ ':' :: ' ' :: word) [0])
      (.key :: .scalar name .plain :: .value :: (v.kinds ++ [.blockEnd, .streamEnd])) := by
  have hfield : LaidField 0 0 0 (name, v) := ⟨hname, h.laid⟩
  have hcolumn : ∀ c ∈ [0].head?, c ≤ 0 := by simp
  have hstarts := startsToken_of_isPlainWord h.isPlainWord
  have hcomment : noComment (' ' :: word) = true := by
    simpa [noComment, isBlank] using noComment_of_startsToken hstarts
  -- The script is put together from its end: the end of the text, the word, the colon, the name.
  have hend : ∀ here, Script (between false here [] [0]) [.blockEnd, .streamEnd] := fun here =>
    (Script.last (emits_end [0] (by simp))).within (between_within_before false here 0 rfl)
  have hword := Script.step
    (emits_lastWord h.isPlainWord (Nat.succ_pos (0 + name.toList.length + 1))) (hend _)
  have hvalue := hword.within (between_within_before false (0 + name.toList.length + 1) 1 hstarts)
  have hcolon := Script.step
    (emits_colon hfield.name_ne_nil rfl hcomment hcolumn (by decide)) hvalue
  have hkey := Script.step
    (emits_name hfield.name_ne_nil hfield.letters hfield.short rfl hcolumn) hcolon
  rw [h.kinds]
  simpa [entering] using hkey

theorem fieldKinds_append (front back : List (String × Value)) :
    Value.fieldKinds (front ++ back) = Value.fieldKinds front ++ Value.fieldKinds back := by
  induction front with
  | nil => rfl
  | cons field front ih =>
    obtain ⟨name, value⟩ := field
    simp [Value.fieldKinds, ih]

/-- A line feed and the document up to its last word say the tokens of the record. -/
theorem script_fragment (hne : fields ≠ []) (hfields : ∀ f ∈ fields, LaidField step 0 height f)
    (hheight : 1 + height < depthLimit) (hname : isFieldName name = true) (h : LaidWord v word) :
    Script (between true 0 ('\n' :: fragment step fields name word) [])
      ((Value.record (fields ++ [(name, v)])).kinds ++ [.streamEnd]) := by
  have hlast := script_lastField hname h
  have hfield : LaidField 0 0 0 (name, v) := ⟨hname, h.laid⟩
  have hne' : fieldEntries step 0 fields ≠ [] := by simpa [fieldEntries] using hne
  have hentries := entry_of_mem_fieldEntries hfields
  have hcolumn : ∀ c ∈ ([] : List Nat).head?, c ≤ 0 := by simp
  have hnext : startsToken (name.toList ++ ':' :: ' ' :: word) = true := by
    obtain ⟨c, cs, hcs⟩ := List.exists_cons_of_ne_nil hfield.name_ne_nil
    have hc := hfield.letters c (by rw [hcs]; exact List.mem_cons_self)
    rw [show name.toList = c :: cs from hcs]
    exact startsToken_of_isNameChar hc _
  have hscript := script_entries hne' hentries hcolumn rfl (Nat.le_refl 0) hnext hheight hlast
  have hstarts := (Block.of_entries hne' hentries).starts
    (List.replicate 0 ' ' ++ (name.toList ++ ':' :: ' ' :: word))
  have hbelow := hscript.within (between_within_before_below true 0 0 (c := '\n') rfl hstarts)
  rw [flatten_fieldEntries] at hbelow
  rw [kinds_record (by simp), fieldKinds_append]
  simpa [entering, fragment, Value.fieldKinds] using hbelow

/-- The document of a record is read back without the line feed at its end. -/
theorem parse_fragment (hne : fields ≠ []) (hfields : ∀ f ∈ fields, LaidField step 0 height f)
    (hheight : 1 + height < depthLimit) (hname : isFieldName name = true) (h : LaidWord v word) :
    ∃ root depth, Document.parse (('\n' :: fragment step fields name word).flatMap
        String.utf8EncodeChar) = .ok (some ⟨root, [], 0, depth⟩) ∧
      (Value.record (fields ++ [(name, v)])).shownBy root := by
  have hall : ∀ f ∈ fields ++ [(name, v)], LaidField step 0 height f := by
    intro f hf
    rcases List.mem_append.mp hf with hf | hf
    · exact hfields f hf
    · rw [List.mem_singleton.mp hf]
      exact ⟨hname, h.laid.mono (Nat.zero_le height)⟩
  -- The characters are those of the whole document, and there are no more of them: one line feed
  -- has gone from the end to the front.
  have htext : blockText 0 ((fieldEntries step 0 (fields ++ [(name, v)])).map Prod.fst) =
      fragment step fields name word ++ ['\n'] := by
    rw [← toList_printRecord (by simp), toList_printRecord_append hne h]
  have hblock := block_record (by simp) hall
  rw [htext] at hblock
  refine parse_of_script (by decide) ?_ (LaidField.yields_record (by simp) hall)
    (script_fragment hne hfields hheight hname h) ?_
  · intro c hc
    rcases List.mem_cons.mp hc with rfl | hc
    · rfl
    · exact hblock.written c (List.mem_append_left _ hc)
  · have := hblock.short
    simpa using this

end ClassAudit.Yaml
