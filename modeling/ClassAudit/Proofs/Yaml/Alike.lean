import ClassAudit.Proofs.Yaml.Decode

/-! # Decoding does not depend on lines

    Two documents with the same fields may have them on different lines. They are decoded to the
    same value, or neither of them is decoded: lines are only named in problems.

    Two steps of a decoder are `Alike` if, from progress that is the same up to the texts of
    problems, both fail or both come to the same value and to such progress again.
-/

namespace ClassAudit.Yaml

variable {α β σ : Type} {d d' : Document}
variable {node node' : Node} {s : ByteString} {decoder : Decoder α} {shape : Shape σ}
  {fields : List (String × Value)}

/-! ### Steps -/

/-- Progress that is the same up to which problems have been noted. -/
structure Progress.Alike (s s' : Progress) : Prop where
  problems : s.problems.isEmpty = s'.problems.isEmpty
  nodes : s.nodes = s'.nodes
  repeated : s.repeated = s'.repeated
  aliases : s.aliases = s'.aliases

/-- Both steps fail, or they come to the same value and to progress that is alike. -/
inductive AlikeResults :
    Except DecodeError (α × Progress) → Except DecodeError (α × Progress) → Prop
  | ok (a : α) {s s' : Progress} (h : s.Alike s') : AlikeResults (.ok (a, s)) (.ok (a, s'))
  | error (e e' : DecodeError) : AlikeResults (.error e) (.error e')

/-- Steps that cannot be told apart but by the problems that they note. -/
def Alike (m m' : Decode α) : Prop :=
  ∀ s s' : Progress, s.Alike s' → AlikeResults (m s) (m' s')

theorem Alike.pure (a : α) : Alike (pure a) (pure a) :=
  fun _ _ hs => .ok a hs

theorem Alike.bind {m m' : Decode α} {f f' : α → Decode β} (h : Alike m m')
    (hf : ∀ a, Alike (f a) (f' a)) : Alike (m >>= f) (m' >>= f') := by
  intro s s' hs
  show AlikeResults (StateT.bind m f s) (StateT.bind m' f' s')
  have hfirst := h s s' hs
  unfold StateT.bind
  generalize m s = first at hfirst ⊢
  generalize m' s' = first' at hfirst ⊢
  cases hfirst with
  | ok a hs => exact hf a _ _ hs
  | error e e' => exact .error e e'

theorem alike_liftM (e : Except DecodeError α) : Alike (liftM e) (liftM e) := by
  intro s s' hs
  cases e with
  | ok a => exact .ok a hs
  | error e => exact .error e e

theorem alike_throw (e : DecodeError) : Alike (throw e : Decode α) (throw e) :=
  fun _ _ _ => .error e e

theorem alike_count : Alike count count := by
  rintro ⟨problems, nodes, repeated, aliases⟩ ⟨problems', nodes', repeated', aliases'⟩ hs
  obtain ⟨hproblems, rfl, rfl, rfl⟩ := hs
  -- Whether there are too many repetitions does not depend on problems.
  have hsame : ∀ n r, (Progress.mk problems n r aliases).isExcessive =
      (Progress.mk problems' n r aliases).isExcessive := fun _ _ => rfl
  simp only [count, bind, StateT.bind, get, getThe, MonadStateOf.get, StateT.get, pure, Except.pure,
    Except.bind, hsame]
  generalize (if aliases.isEmpty = true then repeated else repeated + 1) = more
  split
  · exact .error _ _
  · exact .ok () ⟨hproblems, rfl, rfl, rfl⟩

theorem alike_noteAll {problems problems' : List TypeProblem}
    (h : problems.isEmpty = problems'.isEmpty) : Alike (noteAll problems) (noteAll problems') := by
  rintro s s' ⟨hproblems, hnodes, hrepeated, haliases⟩
  have happend : ∀ front back : List TypeProblem,
      (front ++ back).isEmpty = (front.isEmpty && back.isEmpty) := by
    intro front back
    cases front with
    | nil => rfl
    | cons p front => rfl
  refine .ok () ⟨?_, hnodes, hrepeated, haliases⟩
  rw [happend, happend, h, hproblems]

theorem alike_note (p p' : TypeProblem) : Alike (note p) (note p') :=
  alike_noteAll rfl

theorem alike_mismatch (node node' : Node) (target : String) :
    Alike (mismatch node target : Decode (Option α)) (mismatch node' target) :=
  (alike_note _ _).bind fun _ => Alike.pure none

/-- A node that is no alias counts, and is decoded as it is. -/
theorem visit_eq {f : Node → Decode α} (hnode : node.isAlias = false) :
    visit d node f = count >>= fun _ => f node := by
  cases node <;> first | rfl | cases hnode

theorem alike_visit {f f' : Node → Decode α} (hnode : node.isAlias = false)
    (hnode' : node'.isAlias = false) (h : Alike (f node) (f' node')) :
    Alike (visit d node f) (visit d' node' f') := by
  rw [visit_eq hnode, visit_eq hnode']
  exact alike_count.bind fun _ => h

/-! ### Scalars -/

theorem alike_ofScalar {target : String} {f : String → ScalarValue → Decode (Option α)}
    {text : String} (hf : ∀ value, Alike (f text value) (f text value)) (tag : String)
    (line line' : Nat) :
    Alike (ofScalar target f d (.scalar line tag text))
      (ofScalar target f d' (.scalar line' tag text)) := by
  refine alike_visit rfl rfl ((alike_liftM _).bind fun value => ?_)
  cases value with
  | null => exact Alike.pure none
  | _ =>
    refine (hf _).bind fun a => ?_
    cases a with
    | some a => exact Alike.pure _
    | none => exact alike_mismatch _ _ _

theorem readBytes_eq (h : node.IsText s) : readBytes d node = count >>= fun _ => pure (some s) := by
  obtain ⟨line, tag, text, value, rfl, hvalue, htext⟩ := h
  unfold readBytes ofScalar
  rw [visit_eq rfl]
  simp only [hvalue]
  cases value with
  | null => cases htext
  | text s' => cases htext; rfl
  | bool b => cases htext; rfl
  | int n => cases htext; rfl
  | float x => cases htext; rfl
  | time t => cases htext; rfl

theorem alike_readBytes (h : node.IsText s) (h' : node'.IsText s) :
    Alike (readBytes d node) (readBytes d' node') := by
  rw [readBytes_eq h, readBytes_eq h']
  exact alike_count.bind fun _ => Alike.pure _

theorem alike_readText (h : node.IsText s) (h' : node'.IsText s) :
    Alike (readText d node) (readText d' node') :=
  (alike_readBytes h h').bind fun _ => Alike.pure _

theorem alike_readInt (tag text : String) (line line' : Nat) :
    Alike (readInt d (.scalar line tag text)) (readInt d' (.scalar line' tag text)) := by
  refine alike_ofScalar (fun value => ?_) tag line line'
  cases value <;> exact Alike.pure _

theorem alike_readTime (tag text : String) (line line' : Nat) :
    Alike (readTime d (.scalar line tag text)) (readTime d' (.scalar line' tag text)) := by
  have hscalar : ∀ (d : Document) (line : Nat),
      ¬(d.resolve (.scalar line tag text)).isMapping = true := fun _ _ => Bool.false_ne_true
  rw [readTime, if_neg (hscalar d line), readTime, if_neg (hscalar d' line')]
  refine alike_ofScalar (fun value => ?_) tag line line'
  cases value with
  | time t => exact Alike.pure _
  | _ =>
    dsimp only
    split
    · exact Alike.pure _
    · exact alike_throw _

/-! ### Structures -/

theorem alike_field {name : String} {update : α → σ → σ}
    (h : Alike (decoder d node) (decoder d' node')) (s : σ) :
    Alike ((Field.of name decoder update).read d node s)
      ((Field.of name decoder update).read d' node' s) := by
  refine h.bind fun a => ?_
  cases a with
  | some a => exact Alike.pure _
  | none => exact Alike.pure _

/-- Nodes that show the same value are decoded alike by the field of a name. -/
def Shape.ReadsAlike (shape : Shape σ) (d d' : Document) (f : String × Value) : Prop :=
  ∀ field, shape.fields.find? (fun field => (field.name : ByteString) == f.1) = some field →
    ∀ node node', f.2.shownBy node → f.2.shownBy node' → ∀ s,
      Alike (field.read d node s) (field.read d' node' s)

theorem Shape.readsAlike_of_mem (hnodup : (shape.fields.map Field.name).Nodup) {name : String}
    {update : α → σ → σ} (hmem : Field.of name decoder update ∈ shape.fields) {v : Value}
    (h : ∀ node node', v.shownBy node → v.shownBy node' →
      Alike (decoder d node) (decoder d' node')) : shape.ReadsAlike d d' (name, v) := by
  intro field hfind node node' hnode hnode' s
  obtain rfl := Option.some.inj ((find?_of_mem hnodup hmem).symm.trans hfind)
  exact alike_field (h node node' hnode hnode') s

theorem alike_readEntries (hfields : ∀ f ∈ fields, shape.ReadsAlike d d' f)
    {entries entries' : List (Node × Node)} (h : Value.fieldsShownBy fields entries)
    (h' : Value.fieldsShownBy fields entries') (done : List ByteString) (taken : Option Taken)
    (s : σ) :
    Alike (shape.readEntries d entries done taken s)
      (shape.readEntries d' entries' done taken s) := by
  induction fields generalizing entries entries' done taken s with
  | nil =>
    obtain rfl : entries = [] := h
    obtain rfl : entries' = [] := h'
    exact Alike.pure _
  | cons f fields ih =>
    obtain ⟨key, node, rest, rfl, ⟨line, rfl⟩, hnode, hrest⟩ := h
    obtain ⟨key', node', rest', rfl, ⟨line', rfl⟩, hnode', hrest'⟩ := h'
    obtain ⟨hfield, hfields⟩ := List.forall_mem_cons.mp hfields
    have hnext := fun done taken s => ih hfields hrest hrest' done taken s
    have hkey : ∀ {d : Document} {line : Nat}, readBytes d (.scalar line "!!str" f.1) =
        count >>= fun _ => pure (some (f.1 : ByteString)) := fun {_ line} =>
      readBytes_eq ⟨line, "!!str", f.1, .text f.1, rfl, rfl, rfl⟩
    have hmerge : ∀ line, isMergeKey (.scalar line "!!str" f.1) = false := fun line =>
      isMergeKey_of_isKey ⟨line, rfl⟩
    rw [Shape.readEntries, Shape.readEntries, hmerge, hmerge]
    simp only [hkey, bind_assoc, pure_bind, Bool.false_eq_true, if_false]
    refine alike_count.bind fun _ => ?_
    split
    · exact hnext _ _ _
    · cases hfind : shape.fields.find? (fun field => (field.name : ByteString) == f.1) with
      | none =>
        dsimp only
        split
        · exact (alike_note _ _).bind fun _ => hnext _ _ _
        · exact hnext _ _ _
      | some field =>
        dsimp only
        split
        · exact (alike_note _ _).bind fun _ => hnext _ _ _
        · exact (hfield field hfind node node' hnode hnode' s).bind fun s => hnext _ _ s

theorem forall₂_isKey_of_fieldsShownBy {entries : List (Node × Node)}
    (h : Value.fieldsShownBy fields entries) :
    List.Forall₂ Node.IsKey (entries.map Prod.fst) (fields.map Prod.fst) := by
  rw [List.forall₂_map_left_iff, List.forall₂_map_right_iff]
  exact (Value.forall₂_of_fieldsShownBy h).imp fun _ _ hentry => hentry.1

/-- Two nodes that show the same record are decoded alike, if its fields are. -/
theorem Shape.alike_read (hwhole : shape.whole = none) (hnodup : (fields.map Prod.fst).Nodup)
    (hfields : ∀ f ∈ fields, shape.ReadsAlike d d' f) (h : (Value.record fields).shownBy node)
    (h' : (Value.record fields).shownBy node') (s : σ) :
    Alike (shape.read s d node) (shape.read s d' node') := by
  obtain ⟨line, entries, rfl, hentries⟩ := h
  obtain ⟨line', entries', rfl, hentries'⟩ := h'
  have hdistinct : ∀ {entries}, Value.fieldsShownBy fields entries →
      distinctKeys.go (entries.map Prod.fst) = [] := by
    intro entries hentries
    refine distinctKeys_go_eq_nil ?_
    rwa [map_text_of_isKey (forall₂_isKey_of_fieldsShownBy hentries)]
  have hmerged : ∀ {entries}, Value.fieldsShownBy fields entries → mergedValue? entries = none :=
    fun hentries => mergedValue?_eq_none fun e he =>
      exists_isKey_of_mem (forall₂_isKey_of_fieldsShownBy hentries) e.1 (List.mem_map_of_mem he)
  obtain ⟨fuel, hfuel⟩ := d.exists_reach_eq_succ
  obtain ⟨fuel', hfuel'⟩ := d'.exists_reach_eq_succ
  have hmapping : Alike (shape.readMapping d d.reach entries none s)
      (shape.readMapping d' d'.reach entries' none s) := by
    rw [hfuel, hfuel', Shape.readMapping, Shape.readMapping, hmerged hentries, hmerged hentries']
    exact (alike_readEntries hfields hentries hentries' [] none s).bind fun _ => Alike.pure _
  have hkeys : Alike (distinctKeys entries) (distinctKeys entries') := by
    unfold distinctKeys
    rw [hdistinct hentries, hdistinct hentries']
    exact (alike_noteAll rfl).bind fun _ => Alike.pure _
  unfold Shape.read
  refine alike_visit rfl rfl ?_
  simp only [Node.tag, hwhole, ite_self]
  refine hkeys.bind fun distinct => ?_
  cases distinct with
  | true => exact hmapping.bind fun _ => Alike.pure _
  | false => exact Alike.pure none

/-! ### Documents -/

theorem decode_alike {bytes bytes' : List UInt8} (hparse : Document.parse bytes = .ok (some d))
    (hparse' : Document.parse bytes' = .ok (some d'))
    (h : Alike (decoder d d.root) (decoder d' d'.root)) (a : Option α) :
    decode decoder bytes = .ok a ↔ decode decoder bytes' = .ok a := by
  have hcounted : Alike (do count; decoder d d.root) (do count; decoder d' d'.root) :=
    alike_count.bind fun _ => h
  have hresults := hcounted .start .start ⟨rfl, rfl, rfl, rfl⟩
  rw [decode, decode, hparse, hparse']
  simp only [StateT.run]
  generalize (do count; decoder d d.root : Decode (Option α)) .start = result at hresults ⊢
  generalize (do count; decoder d' d'.root : Decode (Option α)) .start = result' at hresults ⊢
  cases hresults with
  | error e e' =>
    constructor <;> intro h <;> cases h
  | @ok b s s' hs =>
    dsimp only
    rw [hs.problems]
    split
    · rfl
    · constructor <;> intro h <;> cases h

end ClassAudit.Yaml
