import ClassAudit.Proofs.Yaml.Text

/-! # Nodes of written values

    What the reader of nodes makes of the tokens that values say: a scalar of each text, a sequence
    of each list and a mapping of each record.

    * `Gives` says what a reader makes of some tokens, whatever follows them.
    * `Value.kinds` are the tokens of a value, and `Value.shownBy` relates it to a node.
    * `Yields` says that a node is read from some tokens.
-/

namespace ClassAudit.Yaml

open TokenStream

/-- A token that a node starts with, and that has no name in front. -/
def TokenKind.startsNode : TokenKind → Bool
  | .scalar .. | .tag .. | .flowSequenceStart | .blockSequenceStart | .blockMappingStart => true
  | _ => false

/-! ### Tokens at the head -/

namespace Reading

variable {α β : Type} {ready : Bool} {kind next : TokenKind} {kinds kinds' : List TokenKind}
  {property : β → Prop} {m : Read β} {f : Token → Read β}

/-- The reading with another stream. -/
def withStream (r : Reading) (s : TokenStream) : Reading :=
  { r with stream := s }

/-- A reader takes some tokens and gives a result with a property, whatever follows them. The
    first token can be taken at once if it has been looked at, as `ready` says. -/
def Gives (ready : Bool) (m : Read α) (kinds : List TokenKind) (property : α → Prop) : Prop :=
  ∀ (r : Reading) (more : List TokenKind), r.handles = standardHandles →
    r.stream.Hands (kinds ++ more) → (ready = true → r.stream.Ready) →
    ∃ a s, m r = .ok (a, r.withStream s) ∧ s.Hands more ∧ property a

namespace Gives

theorem pure {a : β} (h : property a) : Gives ready (Pure.pure a) [] property :=
  fun _ _ _ hhands _ => ⟨a, _, rfl, hhands, h⟩

theorem bind {p : α → Prop} {m : Read α} {f : α → Read β} (hm : Gives ready m kinds p)
    (hf : ∀ a, p a → Gives false (f a) kinds' property) :
    Gives ready (m >>= f) (kinds ++ kinds') property := by
  intro r more hhandles hhands hready
  rw [List.append_assoc] at hhands
  obtain ⟨a, s, hread, hhands', ha⟩ := hm r _ hhandles hhands hready
  obtain ⟨b, s', hread', hafter⟩ := hf a ha (r.withStream s) more hhandles hhands' nofun
  refine ⟨b, s', ?_, hafter⟩
  simp only [Bind.bind, StateT.bind, hread, Except.bind]
  exact hread'

theorem last {p : α → Prop} {m : Read α} {f : α → Read β} (hm : Gives ready m kinds p)
    (hf : ∀ a, p a → Gives false (f a) [] property) : Gives ready (m >>= f) kinds property := by
  simpa using hm.bind hf

theorem peek (h : ∀ t, (∀ kind ∈ kinds.head?, t.kind = kind) → Gives true (f t) kinds property) :
    Gives ready (Reading.peek >>= f) kinds property := by
  intro r more hhandles hhands hready
  obtain ⟨t, s, hpeek, hkind, hhands', hready'⟩ := hhands.peek
  have hhead : ∀ kind ∈ kinds.head?, t.kind = kind := by
    cases kinds with
    | nil => exact nofun
    | cons => exact fun kind h => hkind.trans (Option.some.inj h)
  obtain ⟨b, s', hread, hafter⟩ :=
    h t hhead (r.withStream s) more hhandles hhands' fun _ => hready'
  refine ⟨b, s', ?_, hafter⟩
  simp only [Reading.peek, Bind.bind, StateT.bind, get, getThe, MonadStateOf.get, StateT.get,
    Pure.pure, Except.pure, Except.bind, hpeek]
  exact hread

theorem take (h : Gives false m kinds property) :
    Gives true (Reading.take >>= fun _ => m) (kind :: kinds) property :=
  fun r more hhandles hhands hready =>
    h (r.withStream r.stream.take) more hhandles (hhands.take (hready rfl)) nofun

theorem advance (h : ∀ t, t.kind = next → Gives true (f t) (next :: kinds) property) :
    Gives true (Reading.advance >>= f) (kind :: next :: kinds) property := by
  rw [Reading.advance, bind_assoc]
  exact take (peek fun t ht => h t (ht _ rfl))

/-- Without properties, a node starts with the token at the head. -/
theorem properties {f : Properties × Token → Read β} (hstarts : kind.startsNode = true)
    (htag : ∀ handle suffix, kind ≠ .tag handle suffix)
    (h : ∀ t, t.kind = kind → Gives true (f (⟨t.line, none, none⟩, t)) (kind :: kinds) property) :
    Gives ready (Reading.properties >>= f) (kind :: kinds) property := by
  rw [Reading.properties, bind_assoc]
  refine peek fun t ht => ?_
  rw [ht _ rfl]
  cases kind <;> first | exact h t (ht _ rfl) | exact absurd rfl (htag _ _) | cases hstarts

theorem properties_tag {suffix : String} {f : Properties × Token → Read β}
    (hstarts : kind.startsNode = true) (h : ∀ line t, t.kind = kind → Gives true
      (f (⟨line, none, some (shortTag ("tag:yaml.org,2002:" ++ suffix))⟩, t)) (kind :: kinds)
        property) :
    Gives ready (Reading.properties >>= f) (.tag "!!" suffix :: kind :: kinds) property := by
  rw [Reading.properties, bind_assoc]
  refine peek fun t ht => ?_
  rw [ht _ rfl]
  dsimp only
  rw [bind_assoc]
  refine advance fun u hu => ?_
  intro r more hhandles hhands hready
  have htag : tagOf t.line "!!" suffix r =
      .ok (shortTag ("tag:yaml.org,2002:" ++ suffix), r) := by
    rw [tagOf, if_neg (by decide)]
    simp only [Bind.bind, StateT.bind, get, getThe, MonadStateOf.get, StateT.get, Pure.pure,
      Except.pure, Except.bind, hhandles]
    rfl
  obtain ⟨b, s, hread, hafter⟩ := h t.line u hu r more hhandles hhands hready
  refine ⟨b, s, ?_, hafter⟩
  rw [hu, ← hread]
  cases kind <;> first
    | (simp only [Bind.bind, StateT.bind, htag, Except.bind]; rfl)
    | cases hstarts

end Gives

end Reading

/-! ### Nodes -/

open Reading (Gives)

/-- A node with a property is read from some tokens, whatever follows them. Each token takes one
    step at most. -/
structure Yields (kinds : List TokenKind) (property : Node → Prop) : Prop where
  starts : kinds.head?.any TokenKind.startsNode = true
  read : ∀ {r : Reading} {more : List TokenKind} {fuel : Nat} (indentless : Bool),
    r.handles = Reading.standardHandles → r.stream.Hands (kinds ++ more) → kinds.length ≤ fuel →
    ∃ node s, Reading.node true indentless fuel r = .ok (node, r.withStream s) ∧ s.Hands more ∧
      property node

namespace Yields

variable {kinds : List TokenKind} {property property' : Node → Prop}

theorem exists_cons (h : Yields kinds property) :
    ∃ kind rest, kinds = kind :: rest ∧ kind.startsNode = true := by
  have hstarts := h.starts
  cases kinds with
  | nil => nomatch hstarts
  | cons kind rest => exact ⟨kind, rest, rfl, hstarts⟩

theorem mono (h : Yields kinds property) (himp : ∀ node, property node → property' node) :
    Yields kinds property' := by
  refine ⟨h.starts, fun indentless hhandles hhands hfuel => ?_⟩
  obtain ⟨node, s, hnode, hafter, hproperty⟩ := h.read indentless hhandles hhands hfuel
  exact ⟨node, s, hnode, hafter, himp node hproperty⟩

theorem gives (h : Yields kinds property) (indentless : Bool) {fuel : Nat}
    (hfuel : kinds.length ≤ fuel) {ready : Bool} :
    Gives ready (Reading.node true indentless fuel) kinds property :=
  fun _ _ hhandles hhands _ => h.read indentless hhandles hhands hfuel

theorem of_gives (hstarts : kinds.head?.any TokenKind.startsNode = true)
    (h : ∀ {fuel} (indentless : Bool), kinds.length ≤ fuel + 1 →
      Gives false (Reading.node true indentless (fuel + 1)) kinds property) :
    Yields kinds property := by
  refine ⟨hstarts, fun {r more fuel} indentless hhandles hhands hfuel => ?_⟩
  obtain _ | fuel := fuel
  · rw [List.length_eq_zero_iff.mp (Nat.le_zero.mp hfuel)] at hstarts
    nomatch hstarts
  · exact h indentless hfuel r more hhandles hhands nofun

end Yields

/-- The tag of a scalar that is not given one. -/
def impliedTag (text : String) (style : ScalarStyle) : String :=
  if style = .plain then if text = "<<" then "!!merge" else (implicitValue true text).tag
  else "!!str"

theorem yields_scalar (text : String) (style : ScalarStyle) :
    Yields [.scalar text style] fun node => ∃ line, node = .scalar line (impliedTag text style) text := by
  refine .of_gives rfl fun indentless hfuel => ?_
  rw [Reading.node]
  refine .peek fun t ht => ?_
  rw [ht _ rfl]
  refine .properties rfl (by simp) fun u hu => ?_
  simp only [hu, Reading.giveName, pure_bind]
  exact .take (.pure ⟨u.line, rfl⟩)

theorem yields_binary (text : String) (style : ScalarStyle) :
    Yields [.tag "!!" "binary", .scalar text style] fun node => ∃ line,
      node = .scalar line "!!binary" text := by
  have hshort : Reading.shortTag ("tag:yaml.org,2002:" ++ "binary") = "!!binary" := by decide
  refine .of_gives rfl fun indentless hfuel => ?_
  rw [Reading.node]
  refine .peek fun t ht => ?_
  rw [ht _ rfl]
  refine .properties_tag rfl fun line u hu => ?_
  simp only [hu, hshort, Reading.giveName, pure_bind]
  exact .take (.pure ⟨line, rfl⟩)

theorem yields_emptyList :
    Yields [.flowSequenceStart, .flowSequenceEnd] fun node => ∃ line,
      node = .sequence line "!!seq" [] := by
  refine .of_gives rfl fun {fuel} indentless hfuel => ?_
  obtain _ | fuel := fuel
  · simp at hfuel
  rw [Reading.node]
  refine .peek fun t ht => ?_
  rw [ht _ rfl]
  refine .properties rfl (by simp) fun u hu => ?_
  simp only [hu, Reading.giveName, pure_bind]
  refine .take ?_
  rw [Reading.flowItems, Reading.flowNext, bind_assoc, bind_assoc]
  refine .peek fun v hv => ?_
  simp only [hv _ rfl, true_or, if_true, pure_bind, bind_assoc]
  exact .take (.pure ⟨u.line, rfl⟩)

/-! ### Values -/

/-- What a scalar says where a text is wanted, if it is not null. -/
def ScalarValue.asText (source : String) : ScalarValue → Option ByteString
  | .null => none
  | .text s => some s
  | _ => some source

/-- What a scalar says where a truth value is wanted. -/
def ScalarValue.asBool : ScalarValue → Option Bool
  | .bool b => some b
  | .text s => wordBool? s.shown
  | _ => none

/-- A scalar that says a text. -/
def Node.IsText (node : Node) (s : ByteString) : Prop :=
  ∃ line tag text value, node = .scalar line tag text ∧ scalarValue tag text = .ok value ∧
    value.asText text = some s

def Node.IsBool (node : Node) (b : Bool) : Prop :=
  ∃ line tag text value, node = .scalar line tag text ∧ scalarValue tag text = .ok value ∧
    value.asBool = some b

/-- The key of a field. -/
def Node.IsKey (node : Node) (name : String) : Prop :=
  ∃ line, node = .scalar line "!!str" name

mutual

/-- The tokens of a value. -/
def Value.kinds : Value → List TokenKind
  | .text s => textKinds s
  | .bool b => [.scalar (toString b) .plain]
  | .int n => [.scalar (toString n) .plain]
  | .time t => [.scalar t.text .plain]
  | .list [] => [.flowSequenceStart, .flowSequenceEnd]
  | .list (item :: items) =>
    .blockSequenceStart :: (Value.itemKinds (item :: items) ++ [.blockEnd])
  | .record [] => [.flowMappingStart, .flowMappingEnd]
  | .record (field :: fields) =>
    .blockMappingStart :: (Value.fieldKinds (field :: fields) ++ [.blockEnd])

def Value.itemKinds : List Value → List TokenKind
  | [] => []
  | item :: items => .blockEntry :: (Value.kinds item ++ Value.itemKinds items)

def Value.fieldKinds : List (String × Value) → List TokenKind
  | [] => []
  | (name, value) :: fields =>
    .key :: .scalar name .plain :: .value :: (Value.kinds value ++ Value.fieldKinds fields)

end

mutual

/-- A node shows a value. -/
def Value.shownBy : Value → Node → Prop
  | .text s, node => node.IsText s
  | .bool b, node => node.IsBool b
  | .int n, node => ∃ line, node = .scalar line (impliedTag (toString n) .plain) (toString n)
  | .time t, node => ∃ line, node = .scalar line (impliedTag t.text .plain) t.text
  | .list items, node => ∃ line nodes, node = .sequence line "!!seq" nodes ∧
      Value.itemsShownBy items nodes
  | .record fields, node => ∃ line entries, node = .mapping line "!!map" entries ∧
      Value.fieldsShownBy fields entries

def Value.itemsShownBy : List Value → List Node → Prop
  | [], nodes => nodes = []
  | item :: items, nodes => ∃ node rest, nodes = node :: rest ∧ Value.shownBy item node ∧
      Value.itemsShownBy items rest

def Value.fieldsShownBy : List (String × Value) → List (Node × Node) → Prop
  | [], entries => entries = []
  | (name, value) :: fields, entries => ∃ key node rest, entries = (key, node) :: rest ∧
      key.IsKey name ∧ Value.shownBy value node ∧ Value.fieldsShownBy fields rest

end

/-! ### Collections -/

/-- The items of a block sequence are read one by one. -/
theorem gives_blockItems {items : List Value} (h : ∀ v ∈ items, Yields v.kinds v.shownBy)
    {fuel : Nat} (hfuel : (Value.itemKinds items).length < fuel) :
    Gives false (Reading.blockItems fuel) (Value.itemKinds items ++ [.blockEnd])
      (Value.itemsShownBy items) := by
  induction items generalizing fuel with
  | nil =>
    obtain _ | fuel := fuel
    · omega
    rw [Reading.blockItems]
    refine .peek fun t ht => ?_
    rw [ht _ rfl]
    exact .take (.pure rfl)
  | cons item items ih =>
    obtain ⟨hitem, hitems⟩ := List.forall_mem_cons.mp h
    obtain _ | fuel := fuel
    · omega
    simp only [Value.itemKinds, List.length_cons, List.length_append] at hfuel
    obtain ⟨kind, rest, heq, hstarts⟩ := hitem.exists_cons
    have hread : Gives true (do
        let item ← Reading.node true false fuel
        return item :: (← Reading.blockItems fuel)) (item.kinds ++
          (Value.itemKinds items ++ [.blockEnd])) (Value.itemsShownBy (item :: items)) := by
      refine (hitem.gives false (show _ ≤ fuel by omega)).bind fun node hnode => ?_
      refine (ih hitems (show _ < fuel by omega)).last fun nodes hnodes => ?_
      exact .pure ⟨node, nodes, rfl, hnode, hnodes⟩
    rw [Reading.blockItems, Value.itemKinds, List.cons_append, List.append_assoc]
    refine .peek fun t ht => ?_
    rw [ht _ rfl]
    rw [heq] at hread ⊢
    refine .advance fun u hu => ?_
    rw [hu]
    cases kind <;> first | exact hread | cases hstarts

theorem gives_blockValue {value : Value} (h : Yields value.kinds value.shownBy) {fuel : Nat}
    (hfuel : value.kinds.length < fuel) :
    Gives false (Reading.blockValue fuel) (.value :: value.kinds) value.shownBy := by
  obtain _ | fuel := fuel
  · omega
  obtain ⟨kind, rest, heq, hstarts⟩ := h.exists_cons
  have hread : Gives true (Reading.node true true fuel) value.kinds value.shownBy :=
    h.gives true (by omega)
  rw [Reading.blockValue]
  refine .peek fun t ht => ?_
  rw [ht _ rfl]
  rw [heq] at hread ⊢
  refine .advance fun u hu => ?_
  rw [hu]
  cases kind <;> first | exact hread | cases hstarts

theorem gives_blockEntries {fields : List (String × Value)}
    (hnames : ∀ f ∈ fields, impliedTag f.1 .plain = "!!str")
    (h : ∀ f ∈ fields, Yields f.2.kinds f.2.shownBy) {fuel : Nat}
    (hfuel : (Value.fieldKinds fields).length < fuel) :
    Gives false (Reading.blockEntries fuel) (Value.fieldKinds fields ++ [.blockEnd])
      (Value.fieldsShownBy fields) := by
  induction fields generalizing fuel with
  | nil =>
    obtain _ | fuel := fuel
    · omega
    rw [Reading.blockEntries]
    refine .peek fun t ht => ?_
    rw [ht _ rfl]
    exact .take (.pure rfl)
  | cons field fields ih =>
    obtain ⟨name, value⟩ := field
    obtain ⟨hname, hnames⟩ := List.forall_mem_cons.mp hnames
    obtain ⟨hvalue, hvalues⟩ := List.forall_mem_cons.mp h
    obtain _ | fuel := fuel
    · omega
    simp only [Value.fieldKinds, List.length_cons, List.length_append] at hfuel
    simp only [Value.fieldKinds, List.cons_append, List.append_assoc]
    rw [Reading.blockEntries]
    refine .peek fun t ht => ?_
    rw [ht _ rfl]
    refine .advance fun u hu => ?_
    rw [hu]
    -- The key, its value and the entries behind them.
    refine ((yields_scalar name .plain).gives true (by simp; omega)).bind fun key hkey => ?_
    obtain ⟨line, rfl⟩ := hkey
    refine (gives_blockValue hvalue (show value.kinds.length < fuel by omega)).bind
      fun node hnode => ?_
    refine (ih hnames hvalues (show _ < fuel by omega)).last fun entries hentries => ?_
    exact .pure ⟨_, node, entries, rfl, ⟨line, by rw [hname]⟩, hnode, hentries⟩

theorem yields_list {items : List Value} (h : ∀ v ∈ items, Yields v.kinds v.shownBy) :
    Yields (Value.list items).kinds (Value.list items).shownBy := by
  cases items with
  | nil => exact yields_emptyList.mono fun node ⟨line, hnode⟩ => ⟨line, [], hnode, rfl⟩
  | cons item items =>
    refine .of_gives rfl fun {fuel} indentless hfuel => ?_
    simp only [Value.kinds, List.length_cons, List.length_append, List.length_nil] at hfuel
    rw [Value.kinds, Reading.node]
    refine .peek fun t ht => ?_
    rw [ht _ rfl]
    refine .properties rfl (by simp) fun u hu => ?_
    simp only [hu, Reading.giveName, pure_bind, if_true]
    refine .take ((gives_blockItems h (show _ < fuel by omega)).last fun nodes hnodes => ?_)
    exact .pure ⟨u.line, nodes, rfl, hnodes⟩

theorem yields_record {fields : List (String × Value)} (hne : fields ≠ [])
    (hnames : ∀ f ∈ fields, impliedTag f.1 .plain = "!!str")
    (h : ∀ f ∈ fields, Yields f.2.kinds f.2.shownBy) :
    Yields (Value.record fields).kinds (Value.record fields).shownBy := by
  obtain ⟨field, fields, rfl⟩ := List.exists_cons_of_ne_nil hne
  refine .of_gives rfl fun {fuel} indentless hfuel => ?_
  simp only [Value.kinds, List.length_cons, List.length_append, List.length_nil] at hfuel
  rw [Value.kinds, Reading.node]
  refine .peek fun t ht => ?_
  rw [ht _ rfl]
  refine .properties rfl (by simp) fun u hu => ?_
  simp only [hu, Reading.giveName, pure_bind, if_true]
  refine .take ((gives_blockEntries hnames h (show _ < fuel by omega)).last
    fun entries hentries => ?_)
  exact .pure ⟨u.line, entries, rfl, hentries⟩

/-! ### Texts and truth values -/

theorem scalarValue_text {tag : String} (htag : tag = "!!str" ∨ tag = "!!merge") (text : String) :
    scalarValue tag text = .ok (.text text) := by
  rcases htag with rfl | rfl <;> rfl

theorem tag_of_readsAsText {text : String} (h : readsAsText text = true) :
    (implicitValue true text).tag = "!!str" := by
  unfold readsAsText at h
  split at h
  · next heq => rw [heq]; rfl
  · nomatch h

theorem readsAsText_of_plain {text : String} (h : textForm text = .plain) :
    readsAsText text = true := by
  unfold textForm at h
  by_cases hreads : readsAsText text = true
  · exact hreads
  · simp only [hreads, Bool.false_eq_true, if_false] at h
    split at h
    · split at h <;> nomatch h
    · nomatch h

theorem yields_text (s : ByteString) : Yields (Value.text s).kinds (Value.text s).shownBy := by
  show Yields (textKinds s) fun node => node.IsText s
  unfold textKinds
  cases hs : Text.ofUtf8? s.bytes with
  | some text =>
    refine (yields_scalar text (textForm text).style).mono ?_
    rintro _ ⟨line, rfl⟩
    have htag : impliedTag text (textForm text).style = "!!str" ∨
        impliedTag text (textForm text).style = "!!merge" := by
      unfold impliedTag
      cases hform : textForm text with
      | plain =>
        rw [tag_of_readsAsText (readsAsText_of_plain hform)]
        split
        · split
          · exact .inr rfl
          · exact .inl rfl
        · exact .inl rfl
      | singleQuoted => exact .inl rfl
      | doubleQuoted => exact .inl rfl
      | literal => exact .inl rfl
    have hbytes : (text : ByteString) = s := congrArg ByteString.mk (Text.utf8_of_ofUtf8? hs)
    refine ⟨line, _, text, _, rfl, scalarValue_text htag text, ?_⟩
    rw [hbytes]
    rfl
  | none =>
    refine (yields_binary _ _).mono ?_
    rintro _ ⟨line, rfl⟩
    refine ⟨line, _, _, .text s, rfl, ?_, rfl⟩
    rw [scalarValue, if_pos rfl, Text.base64?_wrap]

theorem yields_bool (b : Bool) : Yields (Value.bool b).kinds (Value.bool b).shownBy := by
  refine (yields_scalar (toString b) .plain).mono ?_
  rintro _ ⟨line, rfl⟩
  refine ⟨line, _, _, .bool b, rfl, ?_, rfl⟩
  cases b <;> rfl

end ClassAudit.Yaml
