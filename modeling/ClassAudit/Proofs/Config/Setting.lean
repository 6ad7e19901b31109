import Mathlib.Data.List.Forall2
import ClassAudit.Config.Basic
import ClassAudit.Proofs.ClassFile.Name
import ClassAudit.Proofs.Text.Blank
import ClassAudit.Proofs.Text.Utf8

/-! # Settings made from texts

    The forbidden calls of a project are set by one text, with semicolons between its entries. White
    space around an entry, a class or a signature does not count, nor do blank entries, and only the
    first hash sign of an entry separates. So calls are read back from every way to write them.

    Entries are added one by one. If one of them is no call, those in front of it have been added
    already, and they stay.
-/

namespace ClassAudit

variable {entry key : String} {calls : List ForbiddenCall}

namespace Text

/-! ### Parts between separators -/

theorem splitAtChar_eq_splitOn (separator : Char) (cs : List Char) :
    splitAtChar separator cs = cs.splitOn separator := by
  induction cs with
  | nil => rfl
  | cons c cs ih =>
    rw [splitAtChar, splitOn_cons, ih]
    by_cases hc : c = separator
    · simp [hc]
    · cases hparts : cs.splitOn separator with
      | nil => exact absurd hparts (List.splitOnP_ne_nil _ _)
      | cons part parts => simp [hc]

theorem not_mem_of_isGap {c : Char} (hc : isBlank c = false) {gap : List Char} (h : IsGap gap) :
    c ∉ gap := by
  intro hmem
  rw [h c hmem] at hc
  cases hc

variable {separator : Char}

/-- White space at the end of a text is white space at the end of its last part. What stands in
    front of the text is the beginning of its first part. -/
theorem map_trimChars_splitOn_append {gap : List Char} (hgap : IsGap gap)
    (hseparator : isBlank separator = false) (cs : List Char) {front : List Char}
    (hfront : separator ∉ front) :
    ((front ++ (cs ++ gap)).splitOn separator).map trimChars =
      ((front ++ cs).splitOn separator).map trimChars := by
  induction cs generalizing front with
  | nil =>
    have hboth : separator ∉ front ++ gap := by
      simp [hfront, not_mem_of_isGap hseparator hgap]
    rw [List.nil_append, List.append_nil, List.splitOn_eq_singleton hboth,
      List.splitOn_eq_singleton hfront]
    simp [trimChars_append_gap hgap]
  | cons c cs ih =>
    by_cases hc : c = separator
    · -- The front is cut off here, and the rest starts without one.
      have hnone : separator ∉ ([] : List Char) := List.not_mem_nil
      have hrest := ih hnone
      simp only [List.nil_append] at hrest
      simp only [List.cons_append, splitOn_append_of_not_mem hfront, splitOn_cons, hc, if_true,
        List.modifyHead_cons, List.map_cons, hrest]
    · have hlonger : separator ∉ front ++ [c] := by simp [hfront, Ne.symm hc]
      have hrest := ih hlonger
      simpa using hrest

theorem map_trimChars_splitOn {before after : List Char} (hbefore : IsGap before)
    (hafter : IsGap after) (hseparator : isBlank separator = false) (cs : List Char) :
    ((before ++ (cs ++ after)).splitOn separator).map trimChars =
      (cs.splitOn separator).map trimChars := by
  have hfront := not_mem_of_isGap hseparator hbefore
  rw [map_trimChars_splitOn_append hafter hseparator cs hfront, splitOn_append_of_not_mem hfront]
  cases cs.splitOn separator with
  | nil => rfl
  | cons part parts => simp [trimChars_gap_append hbefore]

end Text

namespace Config

open Text

/-! ### Entries -/

theorem trim_eq_empty_iff {s : String} : trim s = "" ↔ IsGap s.toList := by
  rw [trim, ← String.toList_inj, String.toList_ofList, ← trimChars_eq_nil_iff]
  rfl

theorem entriesOf_eq (text : String) :
    entriesOf text =
      (((text.toList.splitOn ';').map trimChars).map String.ofList).filter (· ≠ "") := by
  have htrim : ∀ part : List Char, trim (String.ofList part) = String.ofList (trimChars part) := by
    intro part
    rw [trim, String.toList_ofList]
  rw [entriesOf, split, splitAtChar_eq_splitOn, List.map_map, List.map_map]
  exact congrArg _ (List.map_congr_left fun part _ => htrim part)

theorem entriesOf_trim (text : String) : entriesOf (trim text) = entriesOf text := by
  obtain ⟨before, after, hbefore, hafter, htext⟩ := exists_gaps text.toList
  have hsemicolon : isBlank ';' = false := rfl
  have hparts := map_trimChars_splitOn hbefore hafter hsemicolon (trimChars text.toList)
  rw [← htext] at hparts
  rw [entriesOf_eq, entriesOf_eq, trim, String.toList_ofList, hparts]

/-- An entry is a call: a class and a signature with a hash sign between them, and neither of them
    blank. The signature may have further hash signs in it. -/
def IsCall (entry : String) (call : ForbiddenCall) : Prop :=
  ∃ className signature, entry.toList = className ++ '#' :: signature ∧ '#' ∉ className ∧
    ¬IsGap className ∧ ¬IsGap signature ∧
    call = ⟨String.ofList (trimChars className), String.ofList (trimChars signature)⟩

theorem ofList_trimChars_eq_empty {cs : List Char} :
    String.ofList (trimChars cs) = "" ↔ IsGap cs := by
  rw [← trimChars_eq_nil_iff, ← String.toList_inj, String.toList_ofList]
  rfl

theorem callOf?_eq_some_iff {call : ForbiddenCall} :
    callOf? entry = some call ↔ IsCall entry call := by
  have hne : (fun c : Char => c != '#') = fun c => decide (c ≠ '#') := by
    funext c
    rw [bne, beq_eq_decide, decide_not]
  unfold callOf? IsCall
  simp only [trim, String.toList_ofList, ofList_trimChars_eq_empty, hne]
  constructor
  · intro h
    split at h
    · next hhash =>
      obtain ⟨className, signature, hentry, hclass⟩ :=
        List.eq_append_cons_of_mem (List.contains_iff_mem.mp hhash)
      obtain ⟨htake, hdrop⟩ := eq_append_cons_iff.mp ⟨hentry, hclass⟩
      rw [htake, hdrop, List.drop_one, List.tail_cons] at h
      split at h
      · cases h
      · next hblank =>
        obtain ⟨hblank, hblank'⟩ := not_or.mp hblank
        exact ⟨className, signature, hentry, hclass, hblank, hblank', (Option.some.inj h).symm⟩
    · cases h
  · rintro ⟨className, signature, hentry, hclass, hblank, hblank', rfl⟩
    have hhash : entry.toList.contains '#' = true := by simp [hentry]
    obtain ⟨htake, hdrop⟩ := eq_append_cons_iff.mp ⟨hentry, hclass⟩
    rw [if_pos hhash, htake, hdrop, List.drop_one, List.tail_cons,
      if_neg (not_or.mpr ⟨hblank, hblank'⟩)]

theorem callOf?_eq_none_iff : callOf? entry = none ↔ ∀ call, ¬IsCall entry call := by
  simp only [← callOf?_eq_some_iff, Option.eq_none_iff_forall_ne_some]

theorem IsCall.ne_empty {call : ForbiddenCall} (h : IsCall entry call) : entry ≠ "" := by
  rintro rfl
  obtain ⟨className, signature, hentry, -⟩ := h
  simp at hentry

/-- White space around an entry is white space around its class and its signature. -/
theorem IsCall.trim {cs : List Char} {call : ForbiddenCall} (h : IsCall (String.ofList cs) call) :
    IsCall (String.ofList (trimChars cs)) call := by
  obtain ⟨className, signature, hcs, hhash, hblank, hblank', rfl⟩ := h
  obtain ⟨before, after, hbefore, hafter, hgaps⟩ := exists_gaps cs
  rw [String.toList_ofList, hgaps] at hcs
  -- The class reaches beyond the white space in front of it, and the signature starts before the
  -- white space behind it, since neither of them is blank.
  rcases List.append_eq_append_iff.mp hcs with ⟨className', rfl, hrest⟩ | ⟨gap, rfl, -⟩
  · rcases List.append_eq_append_iff.mp hrest with ⟨gap, -, hgap⟩ | ⟨rest, htrim, hsignature⟩
    · have hmem : '#' ∈ after := by simp [hgap]
      exact absurd hmem (not_mem_of_isGap rfl hafter)
    · cases rest with
      | nil =>
        rw [List.nil_append] at hsignature
        have hmem : '#' ∈ after := by simp [← hsignature]
        exact absurd hmem (not_mem_of_isGap rfl hafter)
      | cons mark signature' =>
        rw [List.cons_append] at hsignature
        obtain ⟨rfl, rfl⟩ := List.cons.inj hsignature
        have hclass := trimChars_gap_append hbefore className'
        have hsignature := trimChars_append_gap hafter signature'
        rw [← trimChars_eq_nil_iff, hclass, trimChars_eq_nil_iff] at hblank
        rw [← trimChars_eq_nil_iff, hsignature, trimChars_eq_nil_iff] at hblank'
        refine ⟨className', signature', ?_, ?_, hblank, hblank', by rw [hclass, hsignature]⟩
        · rw [String.toList_ofList, htrim]
        · exact fun hmem => hhash (List.mem_append_right before hmem)
  · refine absurd (fun c hc => hbefore c ?_) hblank
    exact List.mem_append_left gap hc

/-! ### Adding calls -/

/-- A configuration with further forbidden calls. -/
def withCalls (c : Config) (calls : List ForbiddenCall) : Config :=
  { c with forbiddenCalls := c.forbiddenCalls ++ calls }

@[simp] theorem withCalls_nil (c : Config) : c.withCalls [] = c := by
  simp [withCalls]

@[simp] theorem withCalls_withCalls (c : Config) (calls more : List ForbiddenCall) :
    (c.withCalls calls).withCalls more = c.withCalls (calls ++ more) := by
  simp [withCalls]

/-- Entries that are calls are added, and the others come after them. -/
theorem addCalls_append {entries : List String} (h : List.Forall₂ IsCall entries calls)
    (rest : List String) (c : Config) :
    addCalls (entries ++ rest) c = addCalls rest (c.withCalls calls) := by
  induction h generalizing c with
  | nil => simp
  | @cons entry call entries calls hentry _ ih =>
    have hadd : addCalls (entry :: (entries ++ rest)) c =
        addCalls (entries ++ rest) (c.withCalls [call]) := by
      rw [addCalls, callOf?_eq_some_iff.mpr hentry]
      rfl
    rw [List.cons_append, hadd, ih]
    simp

theorem addCalls_of_isCall {entries : List String} (h : List.Forall₂ IsCall entries calls)
    (c : Config) : addCalls entries c = (c.withCalls calls, none) := by
  rw [← List.append_nil entries, addCalls_append h]
  rfl

theorem addCalls_of_not_isCall {before after : List String}
    (hbefore : List.Forall₂ IsCall before calls) (hentry : ∀ call, ¬IsCall entry call) (c : Config) :
    addCalls (before ++ entry :: after) c = (c.withCalls calls, some (.badCall entry)) := by
  rw [addCalls_append hbefore, addCalls, callOf?_eq_none_iff.mpr hentry]

/-- All entries are calls, or there is a first one that is none. -/
theorem all_isCall_or_exists (entries : List String) :
    (∃ calls, List.Forall₂ IsCall entries calls) ∨
      ∃ before entry after calls, entries = before ++ entry :: after ∧
        List.Forall₂ IsCall before calls ∧ ∀ call, ¬IsCall entry call := by
  induction entries with
  | nil => exact .inl ⟨[], .nil⟩
  | cons entry entries ih =>
    by_cases hentry : ∃ call, IsCall entry call
    · obtain ⟨call, hcall⟩ := hentry
      rcases ih with ⟨calls, hcalls⟩ | ⟨before, bad, after, calls, rfl, hcalls, hbad⟩
      · exact .inl ⟨call :: calls, .cons hcall hcalls⟩
      · exact .inr ⟨entry :: before, bad, after, call :: calls, rfl, .cons hcall hcalls, hbad⟩
    · exact .inr ⟨[], entry, entries, [], rfl, .nil, not_exists.mp hentry⟩

/-! ### Failures -/

/-- How it fails to make a setting from a text, and what becomes of the configuration. -/
inductive SetFails (c : Config) (key text : String) : Config → SettingError → Prop
  /-- There is no setting with the key. Nothing changes. -/
  | unknownKey (hkey : ∀ setting : Setting, setting.key ≠ key) (htext : ¬IsGap text.toList) :
    SetFails c key text c (.unknownKey key)
  /-- An entry of the forbidden calls is no call. Those in front of it are added. -/
  | badCall {before after : List String} {entry : String} {calls : List ForbiddenCall}
    (hkey : key = "forbiddenCalls") (hentries : entriesOf text = before ++ entry :: after)
    (hbefore : List.Forall₂ IsCall before calls) (hentry : ∀ call, ¬IsCall entry call) :
    SetFails c key text { c with forbiddenCalls := c.forbiddenCalls ++ calls } (.badCall entry)

theorem Setting.ofKey?_eq_some_iff {setting : Setting} :
    Setting.ofKey? key = some setting ↔ setting.key = key := by
  constructor
  · intro h
    simpa using List.find?_some h
  · rintro rfl
    cases setting <;> decide

theorem Setting.ofKey?_eq_none_iff :
    Setting.ofKey? key = none ↔ ∀ setting : Setting, setting.key ≠ key := by
  simp only [Option.eq_none_iff_forall_ne_some, ne_eq, ofKey?_eq_some_iff]

theorem set_of_unknownKey {c : Config} {text : String}
    (hkey : ∀ setting : Setting, setting.key ≠ key) (htext : ¬IsGap text.toList) :
    c.set key text = (c, some (.unknownKey key)) := by
  rw [set, if_neg (by rwa [trim_eq_empty_iff]), Setting.ofKey?_eq_none_iff.mpr hkey]

/-- A blank text has no entries, and so it adds no calls. -/
theorem set_forbiddenCalls (c : Config) (text : String) :
    c.set "forbiddenCalls" text = addCalls (entriesOf text) c := by
  have hkey : Setting.ofKey? "forbiddenCalls" = some .forbiddenCalls :=
    Setting.ofKey?_eq_some_iff.mpr rfl
  have hnone : entriesOf "" = [] := by decide
  rw [← entriesOf_trim text, set, hkey]
  by_cases hblank : trim text = ""
  · rw [if_pos hblank, hblank, hnone]
    rfl
  · rw [if_neg hblank]

/-- Only for the forbidden calls and for keys that mean nothing does it fail to make a setting. -/
theorem set_eq_none_or {c c' : Config} {text : String} {e : SettingError}
    (h : c.set key text = (c', some e)) :
    ¬IsGap text.toList ∧ ((∀ setting : Setting, setting.key ≠ key) ∨ key = "forbiddenCalls") := by
  unfold set at h
  dsimp only at h
  split at h
  · cases h
  · next htext =>
    refine ⟨by rwa [trim_eq_empty_iff] at htext, ?_⟩
    split at h
    · cases h
    · cases h
    · cases h
    · cases h
    · next hkey => exact .inr (Setting.ofKey?_eq_some_iff.mp hkey).symm
    · next hkey => exact .inl (Setting.ofKey?_eq_none_iff.mp hkey)

/-- **Failures keep what came before.** If it fails to make a setting, nothing has changed, unless
    it is that of the forbidden calls: then the calls in front of the first bad entry have been
    added, and all else is as it was. -/
theorem set_fails_iff (c c' : Config) (key text : String) (e : SettingError) :
    c.set key text = (c', some e) ↔ SetFails c key text c' e := by
  constructor
  · intro h
    obtain ⟨htext, hkey | rfl⟩ := set_eq_none_or h
    · rw [set_of_unknownKey hkey htext] at h
      cases h
      exact .unknownKey hkey htext
    · rw [set_forbiddenCalls] at h
      rcases all_isCall_or_exists (entriesOf text) with
        ⟨calls, hcalls⟩ | ⟨before, entry, after, calls, hentries, hbefore, hentry⟩
      · rw [addCalls_of_isCall hcalls] at h
        cases h
      · rw [hentries, addCalls_of_not_isCall hbefore hentry] at h
        cases h
        exact .badCall rfl hentries hbefore hentry
  · rintro (⟨hkey, htext⟩ | ⟨rfl, hentries, hbefore, hentry⟩)
    · exact set_of_unknownKey hkey htext
    · rw [set_forbiddenCalls, hentries, addCalls_of_not_isCall hbefore hentry]
      rfl

/-- A call in front of an entry that is none stays. -/
theorem exists_failure_with_calls :
    ∃ (c c' : Config) (key text : String) (e : SettingError),
      c.set key text = (c', some e) ∧ c' ≠ c := by
  have hset : (Config.empty.set "forbiddenCalls" "A#f();B").1.forbiddenCalls = [⟨"A", "f()"⟩] ∧
      (Config.empty.set "forbiddenCalls" "A#f();B").2.isSome = true := by
    decide +kernel
  obtain ⟨hcalls, hfails⟩ := hset
  obtain ⟨e, he⟩ := Option.isSome_iff_exists.mp hfails
  refine ⟨.empty, _, "forbiddenCalls", "A#f();B", e, Prod.ext rfl he, fun heq => ?_⟩
  have hnone := congrArg forbiddenCalls heq
  rw [hcalls] at hnone
  cases hnone

/-! ### Calls written as a text -/

/-- White space. -/
abbrev Gap := { cs : List Char // IsGap cs }

/-- A class and a signature that can be written as an entry. -/
structure CallText where
  className : String
  signature : String
  className_not_blank : ¬IsGap className.toList
  hash_not_mem : '#' ∉ className.toList
  semicolon_not_mem_className : ';' ∉ className.toList
  signature_not_blank : ¬IsGap signature.toList
  semicolon_not_mem_signature : ';' ∉ signature.toList

/-- The call that is meant. -/
def CallText.call (w : CallText) : ForbiddenCall :=
  ⟨trim w.className, trim w.signature⟩

/-- What stands between two semicolons. -/
inductive Piece
  | blank (gap : Gap)
  /-- A call, with white space in front of its class, around its hash sign and behind its
      signature. -/
  | call (front before after back : Gap) (text : CallText)

namespace Piece

def call? : Piece → Option CallText
  | .blank _ => none
  | .call _ _ _ _ text => some text

def chars : Piece → List Char
  | .blank gap => gap
  | .call front before after back text =>
    front ++ (text.className.toList ++ before) ++ '#' :: (after ++ (text.signature.toList ++ back))

theorem semicolon_not_mem_chars (p : Piece) : ';' ∉ p.chars := by
  have hgap : ∀ gap : Gap, ';' ∉ gap.val := fun gap => not_mem_of_isGap rfl gap.property
  cases p with
  | blank gap => exact hgap gap
  | call front before after back text =>
    simp [chars, hgap, text.semicolon_not_mem_className, text.semicolon_not_mem_signature]

/-- A piece with a call is an entry for it. -/
theorem isCall_chars (front before after back : Gap) (text : CallText) :
    IsCall (String.ofList (Piece.call front before after back text).chars) text.call := by
  refine ⟨front ++ (text.className.toList ++ before), after ++ (text.signature.toList ++ back), ?_,
    ?_, ?_, ?_, ?_⟩
  · rw [String.toList_ofList]
    rfl
  · simp [not_mem_of_isGap (show isBlank '#' = false from rfl), front.property, before.property,
      text.hash_not_mem]
  · rw [← trimChars_eq_nil_iff, trimChars_append front.property before.property,
      trimChars_eq_nil_iff]
    exact text.className_not_blank
  · rw [← trimChars_eq_nil_iff, trimChars_append after.property back.property,
      trimChars_eq_nil_iff]
    exact text.signature_not_blank
  · rw [trimChars_append front.property before.property,
      trimChars_append after.property back.property]
    rfl

end Piece

/-- Pieces with semicolons between them. -/
def answer (pieces : List Piece) : String :=
  String.ofList ([';'].intercalate (pieces.map Piece.chars))

theorem entriesOf_answer (pieces : List Piece) :
    entriesOf (answer pieces) =
      (pieces.map fun p => String.ofList (trimChars p.chars)).filter (· ≠ "") := by
  cases pieces with
  | nil => decide
  | cons p pieces =>
    have hsemicolon : ∀ cs ∈ (p :: pieces).map Piece.chars, ';' ∉ cs := by
      intro cs hcs
      obtain ⟨q, -, rfl⟩ := List.mem_map.mp hcs
      exact q.semicolon_not_mem_chars
    rw [entriesOf_eq, answer, String.toList_ofList,
      List.splitOn_intercalate ';' hsemicolon (by simp), List.map_map, List.map_map]
    rfl

/-- The entries of pieces are their calls. -/
theorem forall₂_isCall_entriesOf (pieces : List Piece) :
    List.Forall₂ IsCall (entriesOf (answer pieces))
      ((pieces.filterMap Piece.call?).map CallText.call) := by
  rw [entriesOf_answer]
  induction pieces with
  | nil => exact .nil
  | cons p pieces ih =>
    cases p with
    | blank gap =>
      have hblank : String.ofList (trimChars (Piece.blank gap).chars) = "" :=
        ofList_trimChars_eq_empty.mpr gap.property
      rw [List.map_cons, List.filter_cons_of_neg (by simpa using hblank)]
      exact ih
    | call front before after back text =>
      have hcall := (Piece.isCall_chars front before after back text).trim
      rw [List.map_cons, List.filter_cons_of_pos (by simpa using hcall.ne_empty)]
      exact .cons hcall ih

/-- **Calls are read back.** Whatever white space is written around classes, signatures and entries,
    and however many blank entries there are, the calls are added in their order, and nothing else
    changes. -/
theorem set_answer (c : Config) (pieces : List Piece) :
    c.set "forbiddenCalls" (answer pieces) =
      ({ c with forbiddenCalls :=
          c.forbiddenCalls ++ (pieces.filterMap Piece.call?).map CallText.call }, none) := by
  rw [set_forbiddenCalls, addCalls_of_isCall (forall₂_isCall_entriesOf pieces)]
  rfl

example : (empty.set "forbiddenCalls" " A # f#g ;;\u2003B#h").1.forbiddenCalls =
    [⟨"A", "f#g"⟩, ⟨"B", "h"⟩] := by decide +kernel

end Config

end ClassAudit
