import ClassAudit.Proofs.Files.Path
import ClassAudit.Proofs.Policy.Rule

/-! # Segments of package names

    A package name is cut at its dots into segments, of which some may be empty. A rule for a
    package and those below it looks at the beginning of a name and the dot behind it; what it
    covers are the names whose segments start with its own. So such rules order the names of
    packages like the beginnings of lists are ordered.
-/

namespace ClassAudit

namespace Rule

/-! ### Cutting a name -/

/-- What stands between two segments. -/
def dot : UInt8 :=
  0x2E

def segments (name : ByteString) : List ByteString :=
  name.split dot

/-- The segments are the only parts without dots that give the name when they are joined by dots. -/
theorem segments_eq_iff {name : ByteString} {parts : List ByteString} :
    segments name = parts ↔
      parts ≠ [] ∧ (∀ part ∈ parts, dot ∉ part.bytes) ∧ ByteString.intercalate dot parts = name := by
  unfold segments ByteString.split
  constructor
  · rintro rfl
    refine ⟨?_, ?_, ?_⟩
    · rw [ByteString.splitBytes_eq_splitOn, ne_eq, List.map_eq_nil_iff]
      exact List.splitOnP_ne_nil _ _
    · intro part hpart
      obtain ⟨bytes, hbytes, rfl⟩ := List.mem_map.mp hpart
      exact ByteString.not_mem_of_mem_splitBytes hbytes
    · rw [ByteString.intercalate, List.map_map, ByteString.splitBytes_eq_splitOn]
      have hbytes : (ByteString.bytes ∘ ByteString.mk) = id := rfl
      rw [hbytes, List.map_id, List.intercalate_splitOn]
  · rintro ⟨hne, hdots, rfl⟩
    have hcut : (List.intercalate [dot] (parts.map ByteString.bytes)).splitOn dot =
        parts.map ByteString.bytes :=
      List.splitOn_intercalate dot (by simpa using hdots) (by simpa using hne)
    rw [ByteString.intercalate, ByteString.splitBytes_eq_splitOn, hcut, List.map_map]
    exact List.map_id parts

theorem dot_not_mem_of_mem_segments {name part : ByteString} (h : part ∈ segments name) :
    dot ∉ part.bytes :=
  (segments_eq_iff.mp rfl).2.1 part h

theorem segments_inj {name name' : ByteString} : segments name = segments name' ↔ name = name' := by
  constructor
  · intro h
    rw [← (segments_eq_iff.mp h).2.2, (segments_eq_iff.mp rfl).2.2]
  · rintro rfl
    rfl

theorem segments_append_dot (name rest : ByteString) :
    segments (name ++ "." ++ rest) = segments name ++ segments rest := by
  have hdot : (ByteString.ofString ".").bytes = [dot] := by
    rw [ByteString.ofString, Text.utf8_eq_flatMap]
    rfl
  have hbytes : (name ++ "." ++ rest).bytes = name.bytes ++ dot :: rest.bytes := by
    show name.bytes ++ (ByteString.ofString ".").bytes ++ rest.bytes = _
    rw [hdot, List.append_assoc, List.singleton_append]
  unfold segments ByteString.split
  rw [hbytes, ByteString.splitBytes_eq_splitOn, ByteString.splitBytes_eq_splitOn,
    ByteString.splitBytes_eq_splitOn, List.splitOn, List.splitOnP_append_cons _ _ (by simp),
    List.map_append]
  rfl

/-- Names whose segments start like those of another name go on with a dot, or are that name. -/
theorem segments_prefix_iff {package name : ByteString} :
    segments package <+: segments name ↔
      name = package ∨ ∃ rest, name = package ++ "." ++ rest := by
  constructor
  · rintro ⟨more, hmore⟩
    by_cases hnil : more = []
    · rw [hnil, List.append_nil] at hmore
      exact .inl (segments_inj.mp hmore).symm
    · -- What is left are the segments of the text that they make when they are joined.
      have hrest : segments (ByteString.intercalate dot more) = more := by
        refine segments_eq_iff.mpr ⟨hnil, fun part hpart => ?_, rfl⟩
        exact dot_not_mem_of_mem_segments (hmore ▸ List.mem_append_right _ hpart)
      refine .inr ⟨ByteString.intercalate dot more, segments_inj.mp ?_⟩
      rw [segments_append_dot, hrest, hmore]
  · rintro (rfl | ⟨rest, rfl⟩)
    · exact List.prefix_refl _
    · rw [segments_append_dot]
      exact List.prefix_append _ _

/-! ### Coverage by segments -/

variable {r : Rule} {name : ByteString}

theorem covers_iff_segments (h : r.includeSubPackages = true) :
    r.covers name = true ↔ segments r.package <+: segments name := by
  rw [covers_iff, segments_prefix_iff, Covers, h]
  simp

theorem covers_iff_eq (h : r.includeSubPackages = false) :
    r.covers name = true ↔ r.package = name := by
  rw [covers_iff, Covers, h]
  simp [eq_comm]

/-- **Coverage is segment-wise.** A rule that includes the packages below its own covers exactly the
    names whose segments start with those of its package, where the segments of a name are the parts
    without dots that give the name when they are joined by dots; any other rule covers its own
    package alone. Among rules that include the packages below, coverage is therefore reflexive,
    transitive and antisymmetric in the names of the packages. -/
theorem covers_segmentwise :
    (∀ name parts, segments name = parts ↔
      parts ≠ [] ∧ (∀ part ∈ parts, dot ∉ part.bytes) ∧
        ByteString.intercalate dot parts = name) ∧
    (∀ (r : Rule) name, r.includeSubPackages = true →
      (r.covers name = true ↔ segments r.package <+: segments name)) ∧
    (∀ (r : Rule) name, r.includeSubPackages = false →
      (r.covers name = true ↔ r.package = name)) ∧
    (∀ r : Rule, r.includeSubPackages = true → r.covers r.package = true) ∧
    (∀ (r r' : Rule) name, r.includeSubPackages = true → r'.includeSubPackages = true →
      r.covers r'.package = true → r'.covers name = true → r.covers name = true) ∧
    ∀ r r' : Rule, r.includeSubPackages = true → r'.includeSubPackages = true →
      r.covers r'.package = true → r'.covers r.package = true → r.package = r'.package := by
  refine ⟨fun name parts => segments_eq_iff, fun r name => covers_iff_segments,
    fun r name => covers_iff_eq, fun r h => ?_, fun r r' name h h' hcovers hcovers' => ?_,
    fun r r' h h' hcovers hcovers' => ?_⟩
  · exact (covers_iff_segments h).mpr (List.prefix_refl _)
  · rw [covers_iff_segments h] at hcovers ⊢
    exact hcovers.trans ((covers_iff_segments h').mp hcovers')
  · rw [covers_iff_segments h] at hcovers
    rw [covers_iff_segments h'] at hcovers'
    -- Each list of segments starts with the other one, so both have the same length.
    exact segments_inj.mp (hcovers.eq_of_length_le hcovers'.length_le)

/-- The package `a.`, whose last segment is empty, and those below it. -/
def trailingDot : Rule :=
  deny ⟨[0x61, 0x2E]⟩ "internal"

/-- The package `a..b`, with an empty segment in its middle, and those below it. -/
def doubledDot : Rule :=
  allow ⟨[0x61, 0x2E, 0x2E, 0x62]⟩

theorem covers_segmentwise_dots :
    trailingDot.covers doubledDot.package = true ∧ doubledDot.covers trailingDot.package = false ∧
      trailingDot.covers ⟨[0x61, 0x2E, 0x62]⟩ = false ∧
      trailingDot.covers ⟨doubledDot.package.bytes ++ [0x2E, 0xFF]⟩ = true ∧
      ({ trailingDot with includeSubPackages := false }.covers doubledDot.package = false) ∧
      (allow trailingDot.package).package = trailingDot.package := by
  obtain ⟨-, hbelow, honly, hrefl, htrans, hantisymm⟩ := covers_segmentwise
  have hdoubled : trailingDot.covers doubledDot.package = true :=
    (hbelow trailingDot _ rfl).mpr (by decide)
  refine ⟨hdoubled, ?_, ?_, ?_, ?_, ?_⟩
  · rw [Bool.eq_false_iff, ne_eq, hbelow doubledDot _ rfl]
    decide
  · rw [Bool.eq_false_iff, ne_eq, hbelow trailingDot _ rfl]
    decide
  · exact htrans trailingDot doubledDot _ rfl rfl hdoubled
      ((hbelow doubledDot _ rfl).mpr (by decide))
  · rw [Bool.eq_false_iff, ne_eq, honly _ _ rfl]
    decide
  · exact hantisymm (allow trailingDot.package) trailingDot rfl rfl
      (hrefl (allow trailingDot.package) rfl) (hrefl trailingDot rfl)

end Rule

end ClassAudit
