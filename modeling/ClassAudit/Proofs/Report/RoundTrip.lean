import ClassAudit.Proofs.Report
import ClassAudit.Proofs.Yaml.Alike

/-! # Reports of single lines

    A report whose findings are single lines is read back as it was, whatever the lines look like,
    if its summary is read back from the block that is written of it. The reader hands on the block
    without the line feed at its end and with one more in front. So the fields stand one line below
    the lines on which they were written, and the block is decoded to the same.
-/

namespace ClassAudit

open Yaml

namespace Summary

variable {s : Summary}

theorem readsAlike (s : Summary) {d d' : Document} : ∀ f ∈ s.fields, shape.ReadsAlike d d' f := by
  have hnodup : (shape.fields.map Yaml.Field.name).Nodup := by decide
  intro f hf
  simp only [fields, List.mem_cons, List.not_mem_nil, or_false] at hf
  rcases hf with rfl | rfl | rfl
  · exact Shape.readsAlike_of_mem hnodup (.head _) fun _ _ h h' => alike_readText h h'
  · refine Shape.readsAlike_of_mem hnodup (.tail _ (.head _)) ?_
    rintro _ _ ⟨line, rfl⟩ ⟨line', rfl⟩
    exact alike_readInt _ _ line line'
  · refine Shape.readsAlike_of_mem hnodup (.tail _ (.tail _ (.head _))) ?_
    rintro _ _ ⟨line, rfl⟩ ⟨line', rfl⟩
    exact alike_readTime _ _ line line'

theorem exists_parse_printRecord (h : showsIndentation s.check = true) :
    ∃ root depth, Document.parse (Text.utf8 (printRecord 2 s.fields)) =
        .ok (some ⟨root, [], 0, depth⟩) ∧ (Value.record s.fields).shownBy root := by
  have hall : ∀ f ∈ s.fields, LaidField 2 0 0 f := by
    intro f hf
    rw [fields_eq, List.mem_append, List.mem_singleton] at hf
    rcases hf with hf | rfl
    · exact laidField_front h f hf
    · exact ⟨(by decide : isFieldName "generated_at" = true), (laidWord_time s.generatedAt).laid⟩
  exact parse_printRecord hall (by decide)

theorem decode_fragment_iff (h : showsIndentation s.check = true) (a : Option Summary) :
    decode (shape.read .empty) (('\n' :: s.fragment).flatMap String.utf8EncodeChar) = .ok a ↔
      decode (shape.read .empty) (Text.utf8 (printRecord 2 s.fields)) = .ok a := by
  obtain ⟨root, depth, hparse, hroot⟩ := exists_parse_fragment h
  obtain ⟨root', depth', hparse', hroot'⟩ := exists_parse_printRecord h
  have hnodup : (s.fields.map Prod.fst).Nodup :=
    (by decide : ["check", "findings", "generated_at"].Nodup)
  exact decode_alike hparse hparse' (Shape.alike_read rfl hnodup s.readsAlike hroot hroot' .empty) a

theorem decode_printRecord (h : s.Plain) :
    decode (shape.read .empty) (Text.utf8 (printRecord 2 s.fields)) = .ok (some s) :=
  (decode_fragment_iff h.check (some s)).mp (decode_fragment h)

end Summary

namespace Report

/-- **Reports of single lines are read back.** Whatever its lines look like, a report is read back
    as it was, if its summary is read back from the block that is written of it. Neither its check
    nor one of its lines must have a line feed in it. -/
theorem parse_text_of_single_lines {r : Report} (hcheck : '\n' ∉ r.summary.check.toList)
    (hlines : ∀ line ∈ r.lines, '\n' ∉ line.toList)
    (hsummary : decode (Summary.shape.read .empty) (Text.utf8 (printRecord 2 r.summary.fields)) =
      .ok (some r.summary)) : parse (Text.utf8 r.text) = .ok r := by
  have hshows := showsIndentation_of_not_mem hcheck
  have hfragment := (Summary.decode_fragment_iff hshows (some r.summary)).mpr hsummary
  rw [parse_text_of_decode hcheck hfragment, flatMap_readBack_eq_iff.mpr hlines]
  rfl

/-- A report whose lines look like all else in the document. -/
def oddReport : Report where
  summary := ⟨"- # ---", 7, ⟨2026, 1, 2, 3, 4, 5, 250000000, 150⟩⟩
  lines := ["", "- a", "# a", "---", "check: a", "No findings.", "a\r"]

theorem plain_oddReport : oddReport.summary.Plain where
  check := showsIndentation_of_not_mem (by decide)
  findings := ⟨7, rfl, by decide⟩
  generatedAt := by constructor <;> decide

theorem parse_text_of_single_lines_odd :
    '\n' ∉ oddReport.summary.check.toList ∧ (∀ line ∈ oddReport.lines, '\n' ∉ line.toList) ∧
      decode (Summary.shape.read .empty) (Text.utf8 (printRecord 2 oddReport.summary.fields)) =
        .ok (some oddReport.summary) ∧
      parse (Text.utf8 oddReport.text) = .ok oddReport := by
  have hcheck : '\n' ∉ oddReport.summary.check.toList := by decide
  have hlines : ∀ line ∈ oddReport.lines, '\n' ∉ line.toList := by decide
  have hsummary := Summary.decode_printRecord plain_oddReport
  exact ⟨hcheck, hlines, hsummary, parse_text_of_single_lines hcheck hlines hsummary⟩

end Report

end ClassAudit
