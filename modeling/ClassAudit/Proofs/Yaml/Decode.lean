import Mathlib.Data.List.Nodup
import Mathlib.Data.List.Perm.Basic
import ClassAudit.Proofs.Yaml.Node

/-! # Decoding nodes

    What decoders make of nodes without names, where all is as it should be: a scalar gives its
    text or truth value, a sequence the list of what its items give, and a mapping the structure
    with the fields that its entries give, in whatever order they stand.
-/

namespace ClassAudit.Yaml

variable {α β σ : Type}
variable {a : α} {d : Document} {node : Node} {shape : Shape σ} {name : String} {keys : List Node}
  {entries : List (Node × Node)}

/-! ### Decoder steps -/

/-- Nothing is wrong so far, and no alias has been met. -/
structure Progress.Calm (s : Progress) : Prop where
  problems : s.problems = []
  repeated : s.repeated = 0
  aliases : s.aliases = []

/-- A step gives a value without noting a problem. -/
def Decodes (m : Decode α) (a : α) : Prop :=
  ∀ s : Progress, s.Calm → ∃ s', m s = .ok (a, s') ∧ s'.Calm

theorem Decodes.pure (a : α) : Decodes (pure a) a :=
  fun s hs => ⟨s, rfl, hs⟩

theorem Decodes.bind {m : Decode α} {f : α → Decode β} {b : β} (h : Decodes m a)
    (hf : Decodes (f a) b) : Decodes (m >>= f) b := by
  intro s hs
  obtain ⟨s₁, heq, hs₁⟩ := h s hs
  obtain ⟨s₂, heq', hs₂⟩ := hf s₁ hs₁
  refine ⟨s₂, ?_, hs₂⟩
  show StateT.bind m f s = _
  simp only [StateT.bind, heq, Bind.bind, Except.bind, heq']

theorem decodes_ok {e : Except DecodeError α} (h : e = .ok a) : Decodes (liftM e : Decode α) a := by
  intro s hs
  rw [h]
  exact ⟨s, rfl, hs⟩

theorem decodes_count : Decodes count () := by
  intro s hs
  refine ⟨{ s with nodes := s.nodes + 1 }, ?_, hs.problems, hs.repeated, hs.aliases⟩
  obtain ⟨problems, nodes, repeated, aliases⟩ := s
  obtain rfl : repeated = 0 := hs.repeated
  obtain rfl : aliases = [] := hs.aliases
  rfl

theorem decodes_noteAll_nil : Decodes (noteAll []) () := by
  intro s hs
  refine ⟨s, ?_, hs⟩
  obtain ⟨problems, nodes, repeated, aliases⟩ := s
  obtain rfl : problems = [] := hs.problems
  rfl

/-- Whether a node is none of its own. -/
def Node.isAlias : Node → Bool
  | .scalar .. | .sequence .. | .mapping .. => false
  | _ => true

/-- A node that is no alias is decoded as it is. -/
theorem decodes_visit {f : Node → Decode α} (hnode : node.isAlias = false) (h : Decodes (f node) a) :
    Decodes (visit d node f) a := by
  unfold visit
  refine decodes_count.bind ?_
  cases node <;> first | exact h | cases hnode

theorem decodes_apart {m : Decode (Option α)} {a : Option α} (h : Decodes m a) :
    Decodes (apart m) a := by
  obtain ⟨s', heq, hs'⟩ := h .start ⟨rfl, rfl, rfl⟩
  have hrun : m.run .start = .ok (a, s') := heq
  unfold apart
  rw [hrun]
  simp only [hs'.problems]
  exact decodes_noteAll_nil.bind (Decodes.pure a)

/-! ### Scalars and lists -/

/-- A scalar that is no null gives what its value gives. -/
theorem decodes_ofScalar {target : String} {f : String → ScalarValue → Decode (Option α)}
    {line : Nat} {tag text : String} {value : ScalarValue} (hvalue : scalarValue tag text = .ok value)
    (hnull : value ≠ .null) (h : Decodes (f text value) (some a)) :
    Decodes (ofScalar target f d (.scalar line tag text)) (some a) := by
  refine decodes_visit rfl ((decodes_ok hvalue).bind ?_)
  cases value with
  | null => exact absurd rfl hnull
  | _ => exact h.bind (Decodes.pure (some a))

theorem decodes_readBytes {s : ByteString} (h : node.IsText s) :
    Decodes (readBytes d node) (some s) := by
  obtain ⟨line, tag, text, value, rfl, hvalue, htext⟩ := h
  refine decodes_ofScalar hvalue (by rintro rfl; cases htext) ?_
  cases value with
  | null => nomatch htext
  | _ =>
    obtain rfl := Option.some.inj htext
    exact Decodes.pure _

theorem decodes_readText {s : String} (h : node.IsText s) : Decodes (readText d node) (some s) := by
  have hshown : (some (s : ByteString)).map ByteString.shown = some s := by
    rw [Option.map_some, ByteString.shown_ofString]
  rw [← hshown]
  exact (decodes_readBytes h).bind (Decodes.pure _)

theorem decodes_readBool {b : Bool} (h : node.IsBool b) : Decodes (readBool d node) (some b) := by
  obtain ⟨line, tag, text, value, rfl, hvalue, hbool⟩ := h
  refine decodes_ofScalar hvalue (by rintro rfl; cases hbool) ?_
  cases value with
  | bool b' =>
    obtain rfl : b' = b := Option.some.inj hbool
    exact Decodes.pure _
  | text s =>
    have hword : wordBool? s.shown = some b := hbool
    show Decodes (pure (wordBool? s.shown)) _
    rw [hword]
    exact Decodes.pure _
  | null | int n | float x | time t => nomatch hbool

theorem decodes_mapM {f : α → Decode β} {as : List α} {bs : List β}
    (h : List.Forall₂ (fun a b => Decodes (f a) b) as bs) : Decodes (as.mapM f) bs := by
  induction h with
  | nil => exact Decodes.pure []
  | @cons a b as bs hab _ ih =>
    rw [List.mapM_cons]
    exact hab.bind (ih.bind (Decodes.pure _))

/-- A sequence of nodes that are related to the items of a list, or a null for the empty list. -/
def Node.IsList (item : Node → α → Prop) (node : Node) (items : List α) : Prop :=
  (∃ line tag nodes, node = .sequence line tag nodes ∧ List.Forall₂ item nodes items) ∨
    (∃ line tag text, node = .scalar line tag text ∧ scalarValue tag text = .ok .null) ∧ items = []

theorem decodes_readList {target : String} {item : Decoder β} (value : α → β)
    {shows : Node → α → Prop}
    (hitem : ∀ node a, shows node a → Decodes (item d node) (some (value a))) {as : List α}
    (h : node.IsList shows as) : Decodes (readList target item d node) (some (as.map value)) := by
  rcases h with ⟨line, tag, nodes, rfl, hnodes⟩ | ⟨⟨line, tag, text, rfl, hnull⟩, rfl⟩
  · refine decodes_visit rfl ?_
    have hall : List.Forall₂ (fun node b => Decodes (item d node) b) nodes
        (as.map fun a => some (value a)) := by
      rw [List.forall₂_map_right_iff]
      exact hnodes.imp hitem
    have hsome : (as.map fun a => some (value a)).filterMap id = as.map value := by
      rw [List.filterMap_map]
      simp
    rw [← hsome]
    exact (decodes_mapM hall).bind (Decodes.pure _)
  · refine decodes_visit rfl ?_
    exact (decodes_ok hnull).bind (Decodes.pure _)

/-! ### Structures -/

/-- A mapping whose entries, in some order, are the fields of a record: each has the name of a field
    as its key, and a value that shows it. -/
def Node.IsRecord (node : Node) (fields : List (String × (Node → Prop))) : Prop :=
  ∃ line entries ordered, node = .mapping line "!!map" entries ∧ entries.Perm ordered ∧
    List.Forall₂ (fun e f => e.1.IsKey f.1 ∧ f.2 e.2) ordered fields

/-- A field of a structure: nodes that show it, and what it does to the structure. -/
structure Setter (σ : Type) where
  name : String
  shows : Node → Prop
  update : σ → σ

/-- A structure has a field of this name, which is decoded like this. -/
def Setter.DecodedBy (shape : Shape σ) (d : Document) (setter : Setter σ) : Prop :=
  ∃ field, shape.fields.find? (fun field => (field.name : ByteString) == setter.name) = some field ∧
    ∀ node s, setter.shows node → Decodes (field.read d node s) (setter.update s)

/-- The structure with all fields updated. -/
def Setter.updateAll (setters : List (Setter σ)) (s : σ) : σ :=
  setters.foldl (fun s setter => setter.update s) s

theorem Setter.updateAll_append (front back : List (Setter σ)) (s : σ) :
    Setter.updateAll (front ++ back) s = Setter.updateAll back (Setter.updateAll front s) :=
  List.foldl_append

theorem find?_of_mem {fields : List (Field σ)} (hnodup : (fields.map Field.name).Nodup)
    {field : Field σ} (hmem : field ∈ fields) :
    fields.find? (fun f => (f.name : ByteString) == field.name) = some field := by
  induction fields with
  | nil => nomatch hmem
  | cons f fields ih =>
    obtain ⟨hname, hnodup⟩ := List.nodup_cons.mp hnodup
    rcases List.mem_cons.mp hmem with rfl | hmem
    · rw [List.find?_cons, beq_self_eq_true]
    · have hne : ((f.name : ByteString) == (field.name : ByteString)) = false := by
        rw [beq_eq_false_iff_ne]
        intro heq
        refine hname (List.mem_map.mpr ⟨field, hmem, ?_⟩)
        exact (ByteString.ofString_inj.mp heq).symm
      rw [List.find?_cons, hne]
      exact ih hnodup hmem

theorem Setter.decodedBy_of_mem (hnodup : (shape.fields.map Field.name).Nodup)
    {decoder : Decoder α} (update : α → σ → σ) (hmem : Field.of name decoder update ∈ shape.fields)
    {shows : Node → Prop} (h : ∀ node, shows node → Decodes (decoder d node) (some a)) :
    (⟨name, shows, update a⟩ : Setter σ).DecodedBy shape d :=
  ⟨_, find?_of_mem hnodup hmem, fun node _ hnode => (h node hnode).bind (Decodes.pure _)⟩

theorem map_text_of_isKey {names : List String} (h : List.Forall₂ Node.IsKey keys names) :
    keys.map Node.text = names := by
  induction h with
  | nil => rfl
  | cons hkey _ ih =>
    obtain ⟨line, rfl⟩ := hkey
    rw [List.map_cons, ih]
    rfl

theorem distinctKeys_go_eq_nil (h : (keys.map Node.text).Nodup) : distinctKeys.go keys = [] := by
  induction keys with
  | nil => rfl
  | cons key keys ih =>
    obtain ⟨hkey, hkeys⟩ := List.nodup_cons.mp h
    have hnone : keys.filter (fun k => key.sameKind k && key.text == k.text) = [] := by
      rw [List.filter_eq_nil_iff]
      intro k hk htrue
      have heq : key.text = k.text := eq_of_beq (Bool.and_eq_true_iff.mp htrue).2
      exact hkey (List.mem_map.mpr ⟨k, hk, heq.symm⟩)
    rw [distinctKeys.go, hnone, ih hkeys]
    rfl

/-- The keys of a record are the names of its fields. -/
theorem Node.IsRecord.exists_entries {fields : List (String × (Node → Prop))}
    (h : node.IsRecord fields) : ∃ line entries, node = .mapping line "!!map" entries ∧
      ∀ k ∈ entries.map Prod.fst, k.text ∈ fields.map Prod.fst := by
  obtain ⟨line, entries, ordered, rfl, hperm, hordered⟩ := h
  refine ⟨line, entries, rfl, ?_⟩
  intro k hk
  have hkeys : List.Forall₂ Node.IsKey (ordered.map Prod.fst) (fields.map Prod.fst) := by
    rw [List.forall₂_map_left_iff, List.forall₂_map_right_iff]
    exact hordered.imp fun e f he => he.1
  rw [← map_text_of_isKey hkeys]
  exact List.mem_map_of_mem ((hperm.map Prod.fst).mem_iff.mp hk)

theorem isMergeKey_of_isKey {key : Node} (h : key.IsKey name) : isMergeKey key = false := by
  obtain ⟨line, rfl⟩ := h
  simp [isMergeKey]

theorem decodes_readKey {key : Node} (h : key.IsKey name) :
    Decodes (readBytes d key) (some (name : ByteString)) := by
  obtain ⟨line, rfl⟩ := h
  exact decodes_readBytes ⟨line, "!!str", name, .text name, rfl, rfl, rfl⟩

/-- Entries with distinct keys update a structure one after the other. -/
theorem decodes_readEntries {setters : List (Setter σ)}
    (h : List.Forall₂ (fun e p => e.1.IsKey p.name ∧ p.shows e.2) entries setters)
    (hsetters : ∀ p ∈ setters, p.DecodedBy shape d) (hnodup : (setters.map Setter.name).Nodup)
    {done : List ByteString} (hdone : ∀ p ∈ setters, (p.name : ByteString) ∉ done) (s : σ) :
    Decodes (shape.readEntries d entries done none s) (Setter.updateAll setters s, none) := by
  induction h generalizing done s with
  | nil => exact Decodes.pure _
  | @cons entry setter entries setters hentry _ ih =>
    obtain ⟨key, value⟩ := entry
    obtain ⟨hkey, hvalue⟩ := hentry
    obtain ⟨hsetter, hsetters⟩ := List.forall_mem_cons.mp hsetters
    obtain ⟨hfresh, hdone⟩ := List.forall_mem_cons.mp hdone
    obtain ⟨hname, hnodup⟩ := List.nodup_cons.mp hnodup
    obtain ⟨field, hfind, hread⟩ := hsetter
    have hdone' : ∀ p ∈ setters, (p.name : ByteString) ∉ (setter.name : ByteString) :: done := by
      intro p hp hmem
      rcases List.mem_cons.mp hmem with heq | hmem
      · refine hname (List.mem_map.mpr ⟨p, hp, ?_⟩)
        exact ByteString.ofString_inj.mp heq
      · exact hdone p hp hmem
    rw [Shape.readEntries, isMergeKey_of_isKey hkey]
    refine (decodes_readKey hkey).bind ?_
    simp only [Option.any_none, Bool.false_eq_true, if_false, hfind, Option.map_none]
    rw [if_neg (by simpa using hfresh)]
    exact (hread value s hvalue).bind (ih hsetters hnodup hdone' (setter.update s))

theorem mergedValue?_eq_none (h : ∀ e ∈ entries, ∃ name, e.1.IsKey name) :
    mergedValue? entries = none := by
  have hnone : entries.filter (fun e => isMergeKey e.1) = [] := by
    rw [List.filter_eq_nil_iff]
    intro e he
    obtain ⟨name, hkey⟩ := h e he
    rw [isMergeKey_of_isKey hkey]
    exact Bool.false_ne_true
  rw [mergedValue?, hnone]
  rfl

theorem exists_isKey_of_mem {names : List String} (h : List.Forall₂ Node.IsKey keys names) :
    ∀ key ∈ keys, ∃ name, key.IsKey name := by
  induction h with
  | nil => simp
  | cons hkey _ ih => exact List.forall_mem_cons.mpr ⟨⟨_, hkey⟩, ih⟩

theorem Document.exists_reach_eq_succ (d : Document) : ∃ n, d.reach = n + 1 := by
  have hpos : 0 < d.reach := Nat.mul_pos (Nat.mul_pos (by decide) (Nat.succ_pos _)) (Nat.succ_pos _)
  exact ⟨d.reach - 1, by omega⟩

/-- A mapping is decoded by its fields, in whatever order they stand. -/
theorem Shape.decodes_read (hwhole : shape.whole = none) {setters : List (Setter σ)}
    (hsetters : ∀ p ∈ setters, p.DecodedBy shape d) (hnodup : (setters.map Setter.name).Nodup)
    (hcomm : ∀ p ∈ setters, ∀ q ∈ setters, p.name ≠ q.name →
      ∀ s, q.update (p.update s) = p.update (q.update s))
    (h : node.IsRecord (setters.map fun p => (p.name, p.shows))) (s : σ) :
    Decodes (shape.read s d node) (some (Setter.updateAll setters s)) := by
  obtain ⟨line, entries, ordered, rfl, hperm, hordered⟩ := h
  rw [List.forall₂_map_right_iff] at hordered
  -- The fields in the order of the entries.
  obtain ⟨setters', hentries, hperm'⟩ := List.perm_comp_forall₂ hperm hordered
  have hmem : ∀ p, p ∈ setters' ↔ p ∈ setters := fun p => hperm'.mem_iff
  have hnodup' : (setters'.map Setter.name).Nodup := (hperm'.map Setter.name).nodup_iff.mpr hnodup
  have hsetters' : ∀ p ∈ setters', p.DecodedBy shape d := fun p hp => hsetters p ((hmem p).mp hp)
  have hkeys : List.Forall₂ Node.IsKey (entries.map Prod.fst) (setters'.map Setter.name) := by
    rw [List.forall₂_map_left_iff, List.forall₂_map_right_iff]
    exact hentries.imp fun e p he => he.1
  have hsame : Setter.updateAll setters' s = Setter.updateAll setters s := by
    refine hperm'.foldl_eq' (fun p hp q hq t => ?_) s
    by_cases hname : p.name = q.name
    · rw [List.inj_on_of_nodup_map hnodup' hp hq hname]
    · exact hcomm p ((hmem p).mp hp) q ((hmem q).mp hq) hname t
  have hdistinct : Decodes (distinctKeys entries) true := by
    unfold distinctKeys
    rw [distinctKeys_go_eq_nil (by rw [map_text_of_isKey hkeys]; exact hnodup')]
    exact decodes_noteAll_nil.bind (Decodes.pure true)
  have hmapping : Decodes (shape.readMapping d d.reach entries none s)
      (Setter.updateAll setters s, none) := by
    obtain ⟨fuel, hfuel⟩ := d.exists_reach_eq_succ
    rw [hfuel, Shape.readMapping, ← hsame]
    refine (decodes_readEntries hentries hsetters' hnodup' (by simp) s).bind ?_
    have hmerged : mergedValue? entries = none := mergedValue?_eq_none fun e he =>
      exists_isKey_of_mem hkeys e.1 (List.mem_map_of_mem he)
    simp only [hmerged]
    exact Decodes.pure _
  unfold Shape.read
  refine decodes_visit rfl ?_
  simp only [Node.tag, hwhole, ite_self]
  exact hdistinct.bind (hmapping.bind (Decodes.pure _))

/-! ### Nodes that show values -/

theorem Value.forall₂_of_itemsShownBy {items : List Value} {nodes : List Node}
    (h : Value.itemsShownBy items nodes) :
    List.Forall₂ (fun node v => Value.shownBy v node) nodes items := by
  induction items generalizing nodes with
  | nil =>
    obtain rfl : nodes = [] := h
    exact .nil
  | cons item items ih =>
    obtain ⟨node, rest, rfl, hitem, hrest⟩ := h
    exact .cons hitem (ih hrest)

theorem Value.forall₂_of_fieldsShownBy {fields : List (String × Value)}
    (h : Value.fieldsShownBy fields entries) :
    List.Forall₂ (fun e f => e.1.IsKey f.1 ∧ f.2.shownBy e.2) entries fields := by
  induction fields generalizing entries with
  | nil =>
    obtain rfl : entries = [] := h
    exact .nil
  | cons field fields ih =>
    obtain ⟨key, node, rest, rfl, hkey, hvalue, hrest⟩ := h
    exact .cons ⟨hkey, hvalue⟩ (ih hrest)

theorem Value.isList_of_shownBy {value : α → Value} {shows : Node → α → Prop}
    (hitem : ∀ node a, (value a).shownBy node → shows node a) {items : List α}
    (h : (Value.list (items.map value)).shownBy node) : node.IsList shows items := by
  obtain ⟨line, nodes, rfl, hnodes⟩ := h
  have hall := Value.forall₂_of_itemsShownBy hnodes
  rw [List.forall₂_map_right_iff] at hall
  exact .inl ⟨line, "!!seq", nodes, rfl, hall.imp hitem⟩

/-- A node that shows a record is a mapping with what its fields are shown by. -/
theorem Value.isRecord_of_shownBy {fields : List (String × Value)}
    {shows : List (String × (Node → Prop))}
    (hfields : List.Forall₂ (fun f f' => f.1 = f'.1 ∧ ∀ node, f.2.shownBy node → f'.2 node) fields
      shows) (h : (Value.record fields).shownBy node) : node.IsRecord shows := by
  obtain ⟨line, entries, rfl, hentries⟩ := h
  refine ⟨line, entries, entries, rfl, List.Perm.refl entries, ?_⟩
  have hall := Value.forall₂_of_fieldsShownBy hentries
  clear hentries
  induction hall generalizing shows with
  | nil =>
    cases hfields
    exact .nil
  | cons hentry _ ih =>
    cases hfields with
    | cons hfield hfields =>
      exact .cons ⟨hfield.1 ▸ hentry.1, hfield.2 _ hentry.2⟩ (ih hfields)

/-! ### Documents -/

theorem decode_eq {decoder : Decoder α} {bytes : List UInt8} {a : Option α}
    (hparse : Document.parse bytes = .ok (some d)) (h : Decodes (decoder d d.root) a) :
    decode decoder bytes = .ok a := by
  have hcounted : Decodes (do count; decoder d d.root) a := decodes_count.bind h
  obtain ⟨s, heq, hs⟩ := hcounted .start ⟨rfl, rfl, rfl⟩
  have hrun : (do count; decoder d d.root : Decode (Option α)).run .start = .ok (a, s) := heq
  rw [decode, hparse]
  simp only [hrun, hs.problems]
  rfl

end ClassAudit.Yaml
