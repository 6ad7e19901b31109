import ClassAudit.Proofs.Assembly.Annotations

/-! # Element values of annotations

    The element values that the format of class files has, as trees. What a value refers to it has as
    indices into a constant pool, and a value that contains others has the number of them in two
    bytes, so that every tree can be written (`ElementValue.bytes`). `ElementValue.indices` are the
    descriptors that a tree names, from left to right; the type of an annotation comes last among
    those of the annotation, although it is written first.
-/

namespace ClassAudit

open Assembly (u2 ReadsRefs)
open AnnotationInfo (readValue ofDefaultAttribute)

/-- The kinds of constants that an element can have. -/
inductive ElementConstant where
  | byte
  | char
  | double
  | float
  | int
  | long
  | short
  | boolean
  | string

def ElementConstant.tag : ElementConstant → Char
  | byte => 'B'
  | char => 'C'
  | double => 'D'
  | float => 'F'
  | int => 'I'
  | long => 'J'
  | short => 'S'
  | boolean => 'Z'
  | string => 's'

/-- An element value, with the indices of its constants. -/
inductive ElementValue where
  | constant (kind : ElementConstant) (index : UInt16)
  | enum (type name : UInt16)
  | classLiteral (descriptor : UInt16)
  /-- A nested annotation with its named elements. -/
  | annotation (type count : UInt16) (names : Fin count.toNat → UInt16)
      (values : Fin count.toNat → ElementValue)
  | array (count : UInt16) (values : Fin count.toNat → ElementValue)

namespace ElementValue

def bytes : ElementValue → List UInt8
  | constant kind index => kind.tag.toUInt8 :: u2 index.toNat
  | enum type name => 'e'.toUInt8 :: u2 type.toNat ++ u2 name.toNat
  | classLiteral descriptor => 'c'.toUInt8 :: u2 descriptor.toNat
  | annotation type count names values =>
    '@'.toUInt8 :: (u2 type.toNat ++ u2 count.toNat ++
      (List.ofFn fun i => u2 (names i).toNat ++ (values i).bytes).flatten)
  | array count values =>
    '['.toUInt8 :: (u2 count.toNat ++ (List.ofFn fun i => (values i).bytes).flatten)

/-- The indices of the descriptors in a value, in the order in which they are referred to. -/
def indices : ElementValue → List UInt16
  | constant _ _ => []
  | enum type _ => [type]
  | classLiteral descriptor => [descriptor]
  | annotation type _ _ values => (List.ofFn fun i => (values i).indices).flatten ++ [type]
  | array _ values => (List.ofFn fun i => (values i).indices).flatten

/-- A pool has descriptors for the indices of a value. -/
def Resolves (pool : ConstantPool) (text : UInt16 → String) (v : ElementValue) : Prop :=
  ∀ i ∈ v.indices, pool.utf8 i.toNat = .ok (text i)

variable {pool : ConstantPool} {text : UInt16 → String}

/-- A loop over the members of a family. -/
theorem readsRefs_ofFn {r : Nat → List String → Reader (List String)} {n : Nat}
    {refs : Fin n → List String} {bytes : Fin n → List UInt8}
    (h : ∀ i, ReadsRefs r (refs i) (bytes i)) :
    ReadsRefs (fun fuel => Reader.foldTable.go (r fuel) n) (List.ofFn refs).flatten
      (List.ofFn bytes).flatten := by
  induction n with
  | zero => exact ReadsRefs.go_nil
  | succ n ih =>
    rw [List.ofFn_succ, List.ofFn_succ, List.flatten_cons, List.flatten_cons]
    exact (h 0).go_cons (ih fun i => h i.succ)

theorem textSlot {i : UInt16} (h : pool.utf8 i.toNat = .ok (text i)) :
    Assembly.TextSlot pool (text i) i.toNat :=
  ⟨i.toNat_lt, h⟩

theorem map_flatten_indices {n : Nat} (values : Fin n → ElementValue) :
    (List.ofFn fun i => (values i).indices).flatten.map text =
      (List.ofFn fun i => (values i).indices.map text).flatten := by
  rw [List.map_flatten, List.map_ofFn]
  rfl

theorem mem_flatten_indices {n : Nat} {values : Fin n → ElementValue} {k : Fin n} {i : UInt16}
    (h : i ∈ (values k).indices) : i ∈ (List.ofFn fun i => (values i).indices).flatten :=
  List.mem_flatten_of_mem (List.mem_ofFn.mpr ⟨k, rfl⟩) h

/-- A tree is read as what it refers to. The induction is on the tree, and fuel is no concern of it
    because every part is shorter than the whole. -/
theorem readsRefs_bytes {v : ElementValue} (h : v.Resolves pool text) :
    ReadsRefs (readValue pool) (v.indices.map text) v.bytes := by
  induction v with
  | constant kind index =>
    have htag : AnnotationInfo.isConstantTag kind.tag.toUInt8 = true := by
      cases kind <;> decide
    exact Assembly.readsRefs_constant htag index.toNat
  | enum type name =>
    exact Assembly.readsRefs_enum (textSlot (h type List.mem_cons_self)) name.toNat
  | classLiteral descriptor =>
    exact Assembly.readsRefs_classLiteral (textSlot (h descriptor List.mem_cons_self))
  | annotation type count names values ih =>
    have hvalue (k : Fin count.toNat) := ih k fun i hi =>
      h i (List.mem_append_left _ (mem_flatten_indices hi))
    have helements := readsRefs_ofFn fun k =>
      Assembly.readsRefs_element (Assembly.length_u2 (names k).toNat) (hvalue k)
    have htype := textSlot (h type (List.mem_append_right _ List.mem_cons_self))
    -- The type is written in front of the elements and comes behind what they refer to.
    rw [indices, List.map_append, map_flatten_indices]
    exact Assembly.readsRefs_nested (Assembly.readsBody htype count.toNat_lt helements)
  | array count values ih =>
    have hvalue (k : Fin count.toNat) := ih k fun i hi => h i (mem_flatten_indices hi)
    rw [indices, map_flatten_indices]
    exact Assembly.readsRefs_array ((readsRefs_ofFn hvalue).table count.toNat_lt)

/-- **Element values are read exactly.** Whatever follows the bytes of a tree, the reader stops
    behind them, and the descriptors that the tree names come in their order behind those that have
    been seen before, which the reader has in reverse. Fuel for each byte is enough, so that an
    attribute of a default value needs none. -/
theorem readValue_bytes (pool : ConstantPool) (text : UInt16 → String) (v : ElementValue)
    (h : v.Resolves pool text) :
    (∀ fuel seen offset rest, v.bytes.length ≤ fuel →
      readValue pool fuel (List.reverse seen) ⟨offset, v.bytes ++ rest⟩ =
        .ok ((seen ++ v.indices.map text).reverse, ⟨offset + v.bytes.length, rest⟩)) ∧
    ∀ rest, ofDefaultAttribute pool (v.bytes ++ rest) =
      .ok ⟨.defaultValue, 0, "", true, v.indices.map text⟩ := by
  have hreads := readsRefs_bytes h
  refine ⟨fun fuel seen offset rest hfuel => ?_, fun rest => ?_⟩
  · rw [List.reverse_append]
    exact hreads fuel offset seen.reverse hfuel rest
  · have hfuel : v.bytes.length ≤ (v.bytes ++ rest).length := by
      rw [List.length_append]
      exact Nat.le_add_right _ _
    unfold ofDefaultAttribute Reader.on
    rw [hreads _ 0 [] hfuel rest, List.append_nil]
    show Except.ok _ = _
    rw [List.reverse_reverse]

/-- An array with an annotation and a text. The elements of the annotation are an enum constant and an
    array without values. -/
def sample : ElementValue :=
  array 2 fun k =>
    if k.val = 0 then
      annotation 1 2 (fun _ => 4) fun k =>
        if k.val = 0 then enum 2 5 else array 0 fun _ => classLiteral 0
    else constant .string 3

def samplePool : ConstantPool :=
  ⟨#[.unusable, .utf8 "LA;", .utf8 "LE;"]⟩

theorem readValue_bytes_sample :
    sample.bytes = [91, 0, 2, 64, 0, 1, 0, 2, 0, 4, 101, 0, 2, 0, 5, 0, 4, 91, 0, 0, 115, 0, 3] ∧
      readValue samplePool 23 ["LX;"] ⟨40, sample.bytes ++ [7]⟩ =
        .ok (["LA;", "LE;", "LX;"], ⟨63, [7]⟩) ∧
      ofDefaultAttribute samplePool (sample.bytes ++ [7]) =
        .ok ⟨.defaultValue, 0, "", true, ["LE;", "LA;"]⟩ := by
  have hresolves : sample.Resolves samplePool fun i => if i = 1 then "LA;" else "LE;" := by
    have hindices : sample.indices = [2, 1] := by decide
    intro i hi
    rw [hindices] at hi
    rcases List.mem_pair.mp hi with rfl | rfl
    · rfl
    · rfl
  obtain ⟨hvalue, hdefault⟩ := readValue_bytes samplePool _ sample hresolves
  exact ⟨by decide, hvalue 23 ["LX;"] 40 [7] (by decide), hdefault [7]⟩

end ElementValue

end ClassAudit
