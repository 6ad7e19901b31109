import Mathlib.Data.List.Nodup
import Std.Data.HashMap.Lemmas
import Std.Data.HashSet.Lemmas
import ClassAudit.Proofs.ClassFile.AttributeTable

/-! # Merging tables of local variables

    If no two rows of a table speak of the same variable, merging loses nothing: every row of the
    first table keeps its place and gets the generic type of its partner, and the rows of the
    second table that have no partner follow. The two tables stand among the attributes of code, in
    any order.
-/

namespace ClassAudit.LocalVariable

/-- The generic type that rows give to a variable, empty if they do not speak of it. -/
def signatureIn (types : List LocalRow) (key : Nat × Nat) : String :=
  ((types.find? fun row => row.key == key).map LocalRow.type).getD ""

/-- In rows with different keys, a row is the one that is found by its key. -/
theorem find?_key_eq {types : List LocalRow} (h : (types.map LocalRow.key).Nodup) {row : LocalRow}
    (hrow : row ∈ types) : types.find? (fun r => r.key == row.key) = some row := by
  induction types with
  | nil => simp at hrow
  | cons r types ih =>
    rw [List.map_cons, List.nodup_cons] at h
    rcases List.mem_cons.mp hrow with rfl | hmem
    · simp
    · have hne : r.key ≠ row.key := fun heq => h.1 (heq ▸ List.mem_map_of_mem hmem)
      rw [List.find?_cons_of_neg (by simpa using hne)]
      exact ih h.2 hmem

/-- The collected generic types are those of the rows. The accumulator only counts for keys that
    no row has. -/
theorem getElem?_foldl_insert {types : List LocalRow} (h : (types.map LocalRow.key).Nodup)
    (start : Signatures) (key : Nat × Nat) :
    (types.foldl (fun signatures row => signatures.insert row.key row.type) start)[key]? =
      ((types.find? fun row => row.key == key).map LocalRow.type).or start[key]? := by
  induction types generalizing start with
  | nil => rfl
  | cons row types ih =>
    rw [List.map_cons, List.nodup_cons] at h
    rw [List.foldl_cons, ih h.2, Std.HashMap.getElem?_insert]
    by_cases hkey : row.key = key
    · -- No later row can overwrite the type that this row has put in.
      have hnone : types.find? (fun r => r.key == key) = none := by
        rw [List.find?_eq_none]
        intro r hr heq
        exact h.1 (hkey ▸ beq_iff_eq.mp heq ▸ List.mem_map_of_mem hr)
      simp [hkey, hnone]
    · simp [hkey]

theorem getD_signaturesOf {types : List LocalRow} (h : (types.map LocalRow.key).Nodup)
    (key : Nat × Nat) (fallback : String) :
    (signaturesOf types).getD key fallback =
      ((types.find? fun row => row.key == key).map LocalRow.type).getD fallback := by
  unfold signaturesOf
  rw [Std.HashMap.getD_eq_getD_getElem?, getElem?_foldl_insert h]
  simp

/-- Describing rows with new and different keys gives each of them its generic type. -/
theorem describe_eq {rows : List LocalRow} (h : (rows.map LocalRow.key).Nodup)
    (signatures : Signatures) (seen : Std.HashSet (Nat × Nat))
    (hseen : ∀ row ∈ rows, seen.contains row.key = false) :
    (describe signatures seen rows).1 =
        rows.map (fun row => { row.described with signature := signatures.getD row.key "" }) ∧
      ∀ key, (describe signatures seen rows).2.contains key =
        (seen.contains key || (rows.map LocalRow.key).contains key) := by
  induction rows generalizing seen with
  | nil => simp [describe]
  | cons row rows ih =>
    rw [List.map_cons, List.nodup_cons] at h
    -- The key of this row is seen from now on, and the others have different ones.
    have hnew : ∀ r ∈ rows, (seen.insert row.key).contains r.key = false := by
      intro r hr
      have hne : row.key ≠ r.key := fun heq => h.1 (heq ▸ List.mem_map_of_mem hr)
      rw [Std.HashSet.contains_insert, hseen r (List.mem_cons_of_mem row hr)]
      simpa using hne
    obtain ⟨hdescribed, hkeys⟩ := ih h.2 (seen.insert row.key) hnew
    have hrow := hseen row List.mem_cons_self
    refine ⟨?_, fun key => ?_⟩
    · simp only [describe, hrow, hdescribed]
      rfl
    · simp only [describe, hkeys, Std.HashSet.contains_insert, List.map_cons, List.contains_cons]
      rw [Bool.or_comm (row.key == key), Bool.or_assoc, Bool.beq_comm]

/-- Rows with different keys that have not been seen are all added. -/
theorem addGeneric_eq {rows : List LocalRow} (h : (rows.map LocalRow.key).Nodup)
    (signatures : Signatures) (seen : Std.HashSet (Nat × Nat)) :
    addGeneric signatures seen rows =
      (rows.filter fun row => !seen.contains row.key).map fun row =>
        { row.generic with signature := signatures.getD row.key row.type } := by
  induction rows generalizing seen with
  | nil => rfl
  | cons row rows ih =>
    rw [List.map_cons, List.nodup_cons] at h
    -- Having seen this row does not keep another one out.
    have hfilter : (rows.filter fun r => !(seen.insert row.key).contains r.key) =
        rows.filter fun r => !seen.contains r.key := by
      refine List.filter_congr fun r hr => ?_
      have hne : row.key ≠ r.key := fun heq => h.1 (heq ▸ List.mem_map_of_mem hr)
      rw [Std.HashSet.contains_insert, beq_false_of_ne hne, Bool.false_or]
    unfold addGeneric
    by_cases hrow : seen.contains row.key = true
    · rw [if_pos hrow, List.filter_cons_of_neg (by simp [hrow])]
      exact ih h.2 seen
    · rw [if_neg hrow, List.filter_cons_of_pos (by simpa using hrow), List.map_cons,
        ih h.2 (seen.insert row.key), hfilter]

theorem merge_eq {rows types : List LocalRow} (hrows : (rows.map LocalRow.key).Nodup)
    (htypes : (types.map LocalRow.key).Nodup) :
    merge rows types =
      rows.map (fun row => { row.described with signature := signatureIn types row.key }) ++
        (types.filter fun row => !(rows.map LocalRow.key).contains row.key).map LocalRow.generic := by
  obtain ⟨hdescribed, hkeys⟩ := describe_eq hrows (signaturesOf types) ∅ (by simp)
  unfold merge
  simp only [hdescribed, addGeneric_eq htypes, hkeys, getD_signaturesOf htypes]
  congr 1
  simp only [Std.HashSet.contains_empty, Bool.false_or]
  -- A row without a partner keeps its own type: it is the one that is found by its key.
  refine List.map_congr_left fun row hrow => ?_
  rw [find?_key_eq htypes (List.mem_of_mem_filter hrow)]
  rfl

end ClassAudit.LocalVariable

namespace ClassAudit

open Attribute (Context IsTable ofKind)

variable {pool : ConstantPool} {body : List UInt8}

/-! ### Tables among attributes -/

/-- The only attribute of a kind decides on the part of this kind. -/
theorem Attribute.Context.part_of_single (c : Context) {attrs : List (String × List UInt8)}
    {k : Kind} {a : String × List UInt8} {s s' t : c.Seen}
    (hrun : attrs.foldlM (fun s a => (c.add pool s a.1 a.2).toOption) s = some s')
    (hsingle : ofKind c.kind? k attrs = [a]) (hadd : c.add pool s a.1 a.2 = .ok t) :
    c.part k s' = c.part k t := by
  obtain ⟨t', hrun', hpart⟩ := (c.independent pool).run_ofKind k hrun rfl
  rw [hsingle, List.foldlM_cons, hadd] at hrun'
  obtain rfl := Option.some.inj hrun'
  exact hpart

theorem Code.Attributes.add_locals {rows : List LocalRow}
    (h : LocalRow.ofAttribute pool body = .ok rows) (seen : Attributes) :
    Attributes.add pool seen "LocalVariableTable" body =
      .ok { seen with locals := seen.locals ++ rows } := by
  simp only [Attributes.add, h]
  rfl

theorem Code.Attributes.add_localTypes {types : List LocalRow}
    (h : LocalRow.ofAttribute pool body = .ok types) (seen : Attributes) :
    Attributes.add pool seen "LocalVariableTypeTable" body =
      .ok { seen with localTypes := seen.localTypes ++ types } := by
  simp only [Attributes.add, h]
  rfl

namespace LocalVariable

/-- **Tables of local variables merge without loss.** If no two rows of a table have the same slot
    and start, the rows that give descriptors keep their places and all that they say, and each has
    the generic type of its partner in the other table. The rows that give generic types and have no
    partner follow in order. Attributes of code among which both tables stand show this. -/
theorem merge_lossless {rows types : List LocalRow} (hrows : (rows.map LocalRow.key).Nodup)
    (htypes : (types.map LocalRow.key).Nodup) :
    merge rows types =
        rows.map (fun row =>
          ⟨row.name, row.type, signatureIn types row.key, row.index, row.startPc⟩) ++
        (types.filter fun row => row.key ∉ rows.map LocalRow.key).map (fun row =>
          ⟨row.name, "", row.type, row.index, row.startPc⟩) ∧
      ∀ (pool : ConstantPool) (table rest body body' : List UInt8)
        (attrs : List (String × List UInt8)) (seen : Code.Attributes), IsTable pool attrs table →
        ofKind Context.ofCode.kind? .locals attrs = [("LocalVariableTable", body)] →
        ofKind Context.ofCode.kind? .localTypes attrs = [("LocalVariableTypeTable", body')] →
        LocalRow.ofAttribute pool body = .ok rows → LocalRow.ofAttribute pool body' = .ok types →
        (Attribute.foldTable pool (Code.Attributes.add pool) ⟨[], [], []⟩).on (table ++ rest) =
          .ok seen →
        seen.localVariables = merge rows types := by
  refine ⟨?_, ?_⟩
  · rw [merge_eq hrows htypes]
    simp only [List.contains_eq_mem, decide_not]
    rfl
  · intro pool table rest body body' attrs seen htable hlocals hlocalTypes hbody hbody' hread
    have hrun := (Attribute.yields_foldTable (Code.Attributes.add pool) htable ⟨[], [], []⟩).on rest
    rw [hread] at hrun
    -- Whatever stands around them, each table is the only attribute of its kind.
    have hrows' : seen.locals = rows :=
      Context.ofCode.part_of_single hrun.symm hlocals (Code.Attributes.add_locals hbody _)
    have htypes' : seen.localTypes = types :=
      Context.ofCode.part_of_single hrun.symm hlocalTypes (Code.Attributes.add_localTypes hbody' _)
    rw [Code.Attributes.localVariables, hrows', htypes']

def samplePool : ConstantPool :=
  ⟨#[.unusable, .utf8 "LocalVariableTable", .utf8 "LocalVariableTypeTable", .utf8 "a", .utf8 "I",
    .utf8 "TT;"]⟩

/-- Two variables share a slot one after the other, and the second has a partner. -/
def sampleAttributes : List (String × List UInt8) :=
  [("LocalVariableTypeTable",
      [0, 2, 0, 5, 0, 4, 0, 3, 0, 5, 0, 1, 0, 7, 0, 2, 0, 3, 0, 5, 0, 2]),
    ("LocalVariableTable", [0, 2, 0, 0, 0, 5, 0, 3, 0, 4, 0, 1, 0, 5, 0, 4, 0, 3, 0, 4, 0, 1])]

set_option maxRecDepth 4000 in
theorem merge_lossless_sample :
    ∃ table, ∃ seen : Code.Attributes, IsTable samplePool sampleAttributes table ∧
      (Attribute.foldTable samplePool (Code.Attributes.add samplePool) ⟨[], [], []⟩).on table =
        .ok seen ∧
      seen.localVariables =
        [⟨"a", "I", "", 1, 0⟩, ⟨"a", "I", "TT;", 1, 5⟩, ⟨"a", "", "TT;", 2, 7⟩] := by
  obtain ⟨hmerge, hread⟩ := @merge_lossless [⟨"a", "I", 1, 0⟩, ⟨"a", "I", 1, 5⟩]
    [⟨"a", "TT;", 1, 5⟩, ⟨"a", "TT;", 2, 7⟩] (by decide) (by decide)
  have htable : IsTable samplePool sampleAttributes _ :=
    ⟨by decide, _, .cons (by decide : 2 < 65536) rfl (by decide)
      (.cons (by decide : 1 < 65536) rfl (by decide) .nil), rfl⟩
  refine ⟨_, ⟨[], _, _⟩, htable, rfl, ?_⟩
  rw [hread samplePool _ [] _ _ _ _ htable rfl rfl rfl rfl rfl, hmerge]
  rfl

end LocalVariable

end ClassAudit
