import ClassAudit.Proofs.Yaml.Fragment
import ClassAudit.Report.Basic

/-! # Reports read back

    A report is read back up to the line feeds in its findings. A finding is a bullet, which ends
    with its line: what stands behind a line feed is lost, except for lines that look like bullets
    themselves, which become findings of their own. So a report is read back as it was exactly if no
    finding has a line feed in it.
-/

namespace ClassAudit

open Yaml

namespace Report

/-! ### Lines -/

theorem linesOf_append (bytes rest : List UInt8) :
    linesOf (bytes ++ lineFeed :: rest) = bytes.splitOn lineFeed ++ linesOf rest := by
  induction bytes with
  | nil =>
    cases rest with
    | nil => rfl
    | cons c rest => simp [linesOf]
  | cons b bytes ih =>
    obtain ⟨c, bytes', hcons⟩ : ∃ c bytes', bytes ++ lineFeed :: rest = c :: bytes' := by
      cases bytes with
      | nil => exact ⟨_, _, rfl⟩
      | cons c bytes => exact ⟨_, _, rfl⟩
    rw [List.cons_append, hcons, linesOf, ← hcons, ih, Text.splitOn_cons]
    by_cases hb : b = lineFeed
    · simp [hb]
    · cases hparts : bytes.splitOn lineFeed with
      | nil => exact absurd hparts (List.splitOnP_ne_nil _ _)
      | cons part parts => simp [hb]

def bulletText? : List Char → Option String
  | '-' :: ' ' :: text => some (String.ofList text)
  | _ => none

theorem bullet?_flatMap (line : List Char) :
    bullet? (line.flatMap String.utf8EncodeChar) = bulletText? line := by
  have hmark : Text.utf8 "- " = [.ofNat '-'.toNat, .ofNat ' '.toNat] := by decide +kernel
  rw [bullet?, hmark]
  by_cases h : [UInt8.ofNat '-'.toNat, .ofNat ' '.toNat] <+: line.flatMap String.utf8EncodeChar
  · obtain ⟨bytes, hbytes⟩ := h
    obtain ⟨rest, rfl, hrest⟩ := Text.exists_cons_of_flatMap_eq_cons (by decide) hbytes.symm
    obtain ⟨text, rfl, -⟩ := Text.exists_cons_of_flatMap_eq_cons (by decide) hrest.symm
    have hdrop : List.drop 2 (('-' :: ' ' :: text).flatMap String.utf8EncodeChar) =
        Text.utf8 (String.ofList text) := by
      rw [Text.utf8_eq_flatMap, String.toList_ofList]
      rfl
    have htext : Text.ofUtf8Lossy (List.drop 2 (('-' :: ' ' :: text).flatMap
        String.utf8EncodeChar)) = String.ofList text := by
      rw [hdrop, Text.ofUtf8Lossy_utf8]
    rw [if_pos (by rw [List.isPrefixOf_iff_prefix]; exact ⟨bytes, hbytes⟩)]
    exact congrArg some htext
  · rw [if_neg (by simpa using h)]
    unfold bulletText?
    split
    · next text => exact absurd ⟨text.flatMap String.utf8EncodeChar, rfl⟩ h
    · rfl

/-- What is read of a finding: the bullets among the lines that are written of it. -/
def readBack (finding : String) : List String :=
  (("- " ++ finding).toList.splitOn '\n').filterMap bulletText?

def bullets (cs : List Char) : List String :=
  (linesOf (cs.flatMap String.utf8EncodeChar)).filterMap bullet?

theorem bullets_append (cs rest : List Char) :
    bullets (cs ++ '\n' :: rest) = (cs.splitOn '\n').filterMap bulletText? ++ bullets rest := by
  have hbytes : String.utf8EncodeChar '\n' = [lineFeed] := rfl
  have hcut : (cs.flatMap String.utf8EncodeChar).splitOn lineFeed = _ :=
    Text.splitOn_flatMap (c := '\n') (by decide) cs
  rw [bullets, List.flatMap_append, List.flatMap_cons, hbytes, List.singleton_append,
    linesOf_append, hcut, List.filterMap_append, List.filterMap_map]
  exact congrArg (· ++ _) (List.filterMap_congr fun part _ => bullet?_flatMap part)

/-- A finding without line feeds is read back as it is. -/
theorem readBack_eq_singleton {finding : String} (h : '\n' ∉ finding.toList) :
    readBack finding = [finding] := by
  have hline : '\n' ∉ ("- " ++ finding).toList := by simpa using h
  rw [readBack, List.splitOn_eq_singleton hline]
  simp [bulletText?]

theorem not_mem_of_mem_readBack {finding line : String} (h : line ∈ readBack finding) :
    '\n' ∉ line.toList := by
  obtain ⟨part, hpart, htext⟩ := List.mem_filterMap.mp h
  have hnot := Text.not_mem_of_mem_splitOn hpart
  unfold bulletText? at htext
  split at htext
  · next text =>
    obtain rfl := Option.some.inj htext
    simpa using hnot
  · nomatch htext

theorem flatMap_readBack_eq_iff {lines : List String} :
    lines.flatMap readBack = lines ↔ ∀ line ∈ lines, '\n' ∉ line.toList := by
  refine ⟨fun h line hline => ?_, fun h => ?_⟩
  -- A finding that is among those read back is a line, even if it was written as another one.
  · rw [← h, List.mem_flatMap] at hline
    obtain ⟨finding, -, hread⟩ := hline
    exact not_mem_of_mem_readBack hread
  · calc lines.flatMap readBack = lines.flatMap fun line => [line] :=
          List.flatMap_congr fun line hline => readBack_eq_singleton (h line hline)
      _ = lines := by simp

/-- The part of a report below its summary. -/
def body (r : Report) : List Char :=
  ("# " ++ r.summary.check).toList ++ '\n' :: '\n' ::
    if r.lines.isEmpty then "No findings.\n".toList
    else r.lines.flatMap fun line => ("- " ++ line).toList ++ ['\n']

theorem bullets_lines (lines : List String) :
    bullets (lines.flatMap fun line => ("- " ++ line).toList ++ ['\n']) =
      lines.flatMap readBack := by
  induction lines with
  | nil => rfl
  | cons line lines ih =>
    rw [List.flatMap_cons, List.append_assoc, List.singleton_append, bullets_append, ih,
      List.flatMap_cons, readBack]

/-- Neither the heading nor the text that stands for no findings is a bullet. -/
theorem bullets_body {r : Report} (h : '\n' ∉ r.summary.check.toList) :
    bullets r.body = r.lines.flatMap readBack := by
  have hheading : '\n' ∉ ("# " ++ r.summary.check).toList := by simpa using h
  have hno : [("# " ++ r.summary.check).toList].filterMap bulletText? = [] := by simp [bulletText?]
  have hblank : ∀ cs, bullets ('\n' :: cs) = bullets cs := bullets_append []
  rw [body, bullets_append, List.splitOn_eq_singleton hheading, hno, List.nil_append, hblank]
  cases hlines : r.lines with
  | nil => decide +kernel
  | cons line lines => exact bullets_lines (line :: lines)

theorem toList_text (r : Report) :
    r.text.toList = delimiter.toList ++ ((printRecord 2 r.summary.fields).toList ++
      (delimiter.toList ++ r.body)) := by
  have hbullets : (String.join (r.lines.map fun line => "- " ++ line ++ "\n")).toList =
      r.lines.flatMap fun line => ("- " ++ line).toList ++ ['\n'] := by
    rw [String.toList_join, List.flatMap_map]
    exact List.flatMap_congr fun line _ => String.toList_append
  unfold text body
  split
  · simp
  · simp [hbullets]

/-! ### The summary -/

/-- A line feed in front of a dash. -/
def startsDash (a b : Char) : Bool :=
  a == '\n' && b == '-'

theorem cut_append {front : List UInt8} (h : lineFeed ∉ front) (done bytes : List UInt8) :
    cut done (front ++ bytes) = cut (front.reverse ++ done) bytes := by
  induction front generalizing done with
  | nil => rfl
  | cons b front ih =>
    obtain ⟨hne, hfront⟩ : b ≠ lineFeed ∧ lineFeed ∉ front := by
      simpa [eq_comm] using h
    rw [List.cons_append, cut, if_neg fun hand => hne hand.1, ih hfront]
    simp

/-- A summary ends at the first line of three dashes. -/
theorem cut_flatMap {cs : List Char} (h : hasPair startsDash cs = false)
    (done rest : List UInt8) :
    cut done (cs.flatMap String.utf8EncodeChar ++ lineFeed :: (Text.utf8 delimiter ++ rest)) =
      some (done.reverse ++ cs.flatMap String.utf8EncodeChar, rest) := by
  have hline : Text.utf8 delimiter = [.ofNat '-'.toNat, 45, 45, lineFeed] := by decide +kernel
  induction cs generalizing done with
  | nil => simp [cut]
  | cons c cs ih =>
    have hrest : hasPair startsDash cs = false := by
      cases cs with
      | nil => rfl
      | cons d cs => exact (Bool.or_eq_false_iff.mp h).2
    rw [List.flatMap_cons, List.append_assoc]
    by_cases hc : c = '\n'
    -- Only a line feed can start the mark, and what follows it here is no dash.
    · have hbytes : String.utf8EncodeChar '\n' = [lineFeed] := rfl
      have hdash : ¬ Text.utf8 delimiter <+: cs.flatMap String.utf8EncodeChar ++
          lineFeed :: (Text.utf8 delimiter ++ rest) := by
        rw [hline]
        rintro ⟨bytes, heq⟩
        cases cs with
        | nil => nomatch (List.cons.inj heq).1
        | cons d cs =>
          obtain ⟨b, back, hback⟩ := Text.exists_cons_of_flatMap d cs
          rw [hback] at heq
          have hmem := Text.mem_of_flatMap_eq_cons hback
          rw [← (List.cons.inj heq).1] at hmem
          rw [hc, Text.eq_of_mem_utf8EncodeChar (by decide) hmem] at h
          nomatch h
      rw [hc, hbytes, List.singleton_append, cut,
        if_neg fun hand => hdash (List.isPrefixOf_iff_prefix.mp hand.2), ih hrest]
      simp
    · have hmem : lineFeed ∉ String.utf8EncodeChar c := fun hmem =>
        hc (Text.eq_of_mem_utf8EncodeChar (c := '\n') (by decide) hmem)
      rw [cut_append hmem, ih hrest]
      simp

theorem hasPair_append {p : Char → Char → Bool} {d : Char} (h : ∀ a, p a d = false)
    (front back : List Char) :
    hasPair p (front ++ d :: back) = (hasPair p front || hasPair p (d :: back)) := by
  induction front with
  | nil => rfl
  | cons a front ih =>
    cases front with
    | nil => simp [hasPair, h]
    | cons b front =>
      rw [List.cons_append, List.cons_append, hasPair, ← List.cons_append, ih, hasPair,
        Bool.or_assoc]

theorem hasPair_startsDash_of_not_mem {cs : List Char} (h : '\n' ∉ cs) :
    hasPair startsDash cs = false := by
  induction cs with
  | nil => rfl
  | cons a cs ih =>
    obtain ⟨ha, hcs⟩ : a ≠ '\n' ∧ '\n' ∉ cs := by simpa [eq_comm] using h
    cases cs with
    | nil => rfl
    | cons b cs => simp [hasPair, startsDash, ha, ih hcs]

end Report

namespace Summary

def front (s : Summary) : List (String × Value) :=
  [("check", .text s.check), ("findings", .int s.findings)]

/-- The document of a summary up to its last line feed. -/
def fragment (s : Summary) : List Char :=
  Yaml.fragment 2 s.front "generated_at" s.generatedAt.text.toList

/-- A summary that can be read back: its text can be, and its number is none that is too large. -/
structure Plain (s : Summary) : Prop where
  check : showsIndentation s.check = true
  findings : ∃ n : Nat, s.findings = n ∧ n < 0x8000000000000000
  generatedAt : s.generatedAt.Valid

def setters (s : Summary) : List (Setter Summary) :=
  [⟨"check", (Value.text s.check).shownBy, fun q => { q with check := s.check }⟩,
    ⟨"findings", (Value.int s.findings).shownBy, fun q => { q with findings := s.findings }⟩,
    ⟨"generated_at", (Value.time s.generatedAt).shownBy,
      fun q => { q with generatedAt := s.generatedAt }⟩]

variable {s : Summary}

theorem fields_eq (s : Summary) : s.fields = s.front ++ [("generated_at", .time s.generatedAt)] :=
  rfl

theorem toList_fields (s : Summary) : (printRecord 2 s.fields).toList = s.fragment ++ ['\n'] := by
  have hne : s.front ≠ [] := List.cons_ne_nil _ _
  rw [fields_eq]
  exact toList_printRecord_append hne (laidWord_time s.generatedAt)

theorem laidField_front (h : showsIndentation s.check = true) :
    ∀ f ∈ s.front, LaidField 2 0 0 f := by
  have hcheck : LaidField 2 0 0 ("check", .text s.check) :=
    ⟨(by decide : isFieldName "check" = true), laid_text (by decide) h⟩
  have hfindings : LaidField 2 0 0 ("findings", .int s.findings) :=
    ⟨(by decide : isFieldName "findings" = true), laid_int s.findings⟩
  simp [front, hcheck, hfindings]

/-- The document of a summary is read without the line feed at its end. -/
theorem exists_parse_fragment (h : showsIndentation s.check = true) :
    ∃ root depth, Document.parse (('\n' :: s.fragment).flatMap String.utf8EncodeChar) =
        .ok (some ⟨root, [], 0, depth⟩) ∧ (Value.record s.fields).shownBy root := by
  have hne : s.front ≠ [] := List.cons_ne_nil _ _
  exact parse_fragment hne (laidField_front h) (by decide)
    (show isFieldName "generated_at" = true by decide) (laidWord_time s.generatedAt)

variable (h : s.Plain)
include h

theorem decodedBy {d : Document} : ∀ p ∈ s.setters, p.DecodedBy shape d := by
  have hnodup : (shape.fields.map Yaml.Field.name).Nodup := by decide
  obtain ⟨n, hn, hlt⟩ := h.findings
  intro p hp
  simp only [setters, List.mem_cons, List.not_mem_nil, or_false] at hp
  rcases hp with rfl | rfl | rfl
  · exact Setter.decodedBy_of_mem hnodup (fun c q => { q with check := c }) (.head _)
      fun node hnode => decodes_readText hnode
  · refine Setter.decodedBy_of_mem hnodup (fun n q => { q with findings := n }) (.tail _ (.head _))
      fun node hnode => ?_
    rw [hn] at hnode ⊢
    exact decodes_readInt hlt hnode
  · exact Setter.decodedBy_of_mem hnodup (fun t q => { q with generatedAt := t })
      (.tail _ (.tail _ (.head _))) fun node hnode => decodes_readTime h.generatedAt hnode

/-- A summary is read back from its document, without the line feed at its end. -/
theorem decode_fragment :
    decode (shape.read .empty) (('\n' :: s.fragment).flatMap String.utf8EncodeChar) =
      .ok (some s) := by
  obtain ⟨root, depth, hparse, hroot⟩ := exists_parse_fragment h.check
  have hcomm : ∀ p ∈ s.setters, ∀ q ∈ s.setters, p.name ≠ q.name →
      ∀ r, q.update (p.update r) = p.update (q.update r) := by
    intro p hp q hq _ r
    simp only [setters, List.mem_cons, List.not_mem_nil, or_false] at hp hq
    rcases hp with rfl | rfl | rfl <;> rcases hq with rfl | rfl | rfl <;> rfl
  have hrecord : root.IsRecord (s.setters.map fun p => (p.name, p.shows)) :=
    Value.isRecord_of_shownBy
      (.cons ⟨rfl, fun _ h => h⟩ (.cons ⟨rfl, fun _ h => h⟩ (.cons ⟨rfl, fun _ h => h⟩ .nil))) hroot
  have hnodup : (s.setters.map Setter.name).Nodup :=
    (by decide : ["check", "findings", "generated_at"].Nodup)
  exact decode_eq hparse (Shape.decodes_read rfl (decodedBy h) hnodup hcomm hrecord .empty)

end Summary

namespace Report

theorem hasPair_check {s : Summary} (h : '\n' ∉ s.check.toList) :
    hasPair startsDash (fieldText 2 0 ("check", .text s.check)) = false := by
  have hline : '\n' ∉ "check: ".toList ++ (textOf 2 (inner 2 0 false) s.check).toList := by
    simpa using lineFeed_not_mem_textOf h
  have hfront := hasPair_startsDash_of_not_mem hline
  have htext : fieldText 2 0 ("check", .text s.check) =
      ("check: ".toList ++ (textOf 2 (inner 2 0 false) s.check).toList) ++
        if (" " ++ textOf 2 (inner 2 0 false) s.check).toList.getLast?.any isBreak then []
        else ['\n'] := by
    rw [fieldText, Value.written, toList_endLine, String.toList_append]
    simp
  rw [htext]
  split
  · rw [List.append_nil, hfront]
  · rw [hasPair_append (by simp [startsDash]), hfront]
    rfl

theorem hasPair_fragment {s : Summary} (h : '\n' ∉ s.check.toList) :
    hasPair startsDash ('\n' :: s.fragment) = false := by
  have hcheck := hasPair_check h
  have htime := laidWord_time s.generatedAt
  -- The lines behind those of the check.
  have htext : '\n' :: s.fragment = ('\n' :: fieldText 2 0 ("check", .text s.check)) ++
      'f' :: ("indings: ".toList ++ (toString s.findings).toList ++ '\n' ::
        ("generated_at: ".toList ++ s.generatedAt.text.toList)) := by
    have hfindings : fieldText 2 0 ("findings", .int s.findings) =
        'f' :: ("indings: ".toList ++ (toString s.findings).toList ++ ['\n']) := by
      simp [fieldText, Value.written]
    simp only [Summary.fragment, Summary.front, Yaml.fragment, fieldEntries, blockText,
      List.map_cons, List.map_nil, hfindings]
    simp
  have hlast : hasPair startsDash ('\n' ::
      ("generated_at: ".toList ++ s.generatedAt.text.toList)) = false := by
    have hmem : '\n' ∉ "generated_at: ".toList ++ s.generatedAt.text.toList := by
      simpa using htime.lineFeed_not_mem
    exact Bool.or_eq_false_iff.mpr ⟨rfl, hasPair_startsDash_of_not_mem hmem⟩
  have hmiddle : hasPair startsDash
      ('f' :: ("indings: ".toList ++ (toString s.findings).toList)) = false := by
    refine hasPair_startsDash_of_not_mem ?_
    simpa using lineFeed_not_mem_toString s.findings
  -- The text is cut in front of an `f` and of a line feed, where no pair can be cut in two.
  rw [htext, hasPair_append (by simp [startsDash]), ← List.cons_append,
    hasPair_append (by simp [startsDash]), hmiddle, hlast, Bool.or_false, Bool.or_false]
  obtain ⟨rest, hrest⟩ : ∃ rest, fieldText 2 0 ("check", .text s.check) = 'c' :: rest := by
    simp [fieldText]
  rw [hrest] at hcheck ⊢
  exact Bool.or_eq_false_iff.mpr ⟨rfl, hcheck⟩

/-- A report is cut into its summary and what is below. What its summary gives and the bullets are
    read. -/
theorem parse_text_of_decode {r : Report} (hline : '\n' ∉ r.summary.check.toList)
    {s : Option Summary} (h : decode (Summary.shape.read .empty)
      (('\n' :: r.summary.fragment).flatMap String.utf8EncodeChar) = .ok s) :
    parse (Text.utf8 r.text) = .ok ⟨s.getD .empty, r.lines.flatMap readBack⟩ := by
  have hbytes : Text.utf8 r.text = Text.utf8 delimiter ++
      (r.summary.fragment.flatMap String.utf8EncodeChar ++
        lineFeed :: (Text.utf8 delimiter ++ r.body.flatMap String.utf8EncodeChar)) := by
    rw [Text.utf8_eq_flatMap, Text.utf8_eq_flatMap, toList_text, Summary.toList_fields]
    simp
    rfl
  have hcut := cut_flatMap (hasPair_fragment hline) [] (r.body.flatMap String.utf8EncodeChar)
  have hdrop : (Text.utf8 r.text).drop (Text.utf8 delimiter).length =
      r.summary.fragment.flatMap String.utf8EncodeChar ++
        lineFeed :: (Text.utf8 delimiter ++ r.body.flatMap String.utf8EncodeChar) := by
    rw [hbytes, List.drop_left]
  -- The reader looks for the mark from the line feed at the end of the first one.
  have hcut : cut [] (lineFeed :: (Text.utf8 r.text).drop (Text.utf8 delimiter).length) =
      some (('\n' :: r.summary.fragment).flatMap String.utf8EncodeChar,
        r.body.flatMap String.utf8EncodeChar) := by
    rw [hdrop]
    exact hcut
  have hprefix : (Text.utf8 delimiter).isPrefixOf (Text.utf8 r.text) = true := by
    rw [List.isPrefixOf_iff_prefix, hbytes]
    exact List.prefix_append _ _
  rw [parse, if_pos hprefix]
  simp only [hcut, h]
  rw [← bullets_body hline]
  rfl

theorem parse_text {r : Report} (h : r.summary.Plain) (hline : '\n' ∉ r.summary.check.toList) :
    parse (Text.utf8 r.text) = .ok ⟨r.summary, r.lines.flatMap readBack⟩ :=
  parse_text_of_decode hline (Summary.decode_fragment h)

end Report

end ClassAudit
