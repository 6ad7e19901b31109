import Mathlib.Order.Basic
import ClassAudit.Proofs.Call.Site
import ClassAudit.Proofs.ClassFile.MethodType
import ClassAudit.Proofs.Text.Blank

/-! # Targets and the methods they stand for

    A target that is found in a class file stands for one method only: its class and its signature
    tell the owner, the name and the descriptor. A target that is written by hand is the same
    whatever white space stands between its tokens. Normalising a signature takes eight passes over
    it, of which each removes some spaces; together they do what `Text.squeeze` does in one.
-/

namespace ClassAudit

/-! ### Targets tell methods apart -/

/-- A method by the names that class files have for it. -/
structure MethodRef where
  owner : String
  name : String
  descriptor : String

namespace MethodRef

def ofInstruction (i : Instruction) : MethodRef :=
  ⟨i.operand.owner, i.operand.name, i.operand.descriptor⟩

def target (m : MethodRef) : Except DescriptorError CallTarget :=
  CallTarget.ofMember m.owner m.name m.descriptor

/-- A method whose names hold no marks of source code where they would be taken for such. -/
structure IsRegular (m : MethodRef) : Prop where
  owner : '.' ∉ m.owner.toList
  name : '(' ∉ m.name.toList
  descriptor : ∃ type, Descriptor.parseMethod m.descriptor = .ok type ∧
    ∀ name ∈ type.classNames, IsSourceName name

theorem target_inj {m m' : MethodRef} (h : m.IsRegular) (h' : m'.IsRegular)
    (heq : m.target = m'.target) : m = m' := by
  obtain ⟨howner, hname, type, htype, hclasses⟩ := h
  obtain ⟨howner', hname', type', htype', hclasses'⟩ := h'
  simp only [target, CallTarget.ofMember, htype, htype', bind, Except.bind, pure, Except.pure,
    Except.ok.injEq, CallTarget.mk.injEq] at heq
  obtain ⟨hclass, hsignature⟩ := heq
  -- The descriptor is the text of its types, and the signature tells them.
  obtain ⟨htext, hnamed⟩ := Descriptor.parseMethod_eq_ok htype
  obtain ⟨htext', hnamed'⟩ := Descriptor.parseMethod_eq_ok htype'
  have hplain := MethodType.plain_of_classNames hclasses
  have hplain' := MethodType.plain_of_classNames hclasses'
  obtain ⟨rfl, hnames⟩ := MethodType.sourceSignature_inj
    (fun t ht => ⟨hplain t ht, hnamed t ht⟩) (fun t ht => ⟨hplain' t ht, hnamed' t ht⟩)
    hname hname' hsignature
  obtain ⟨owner, name, descriptor⟩ := m
  obtain ⟨owner', name', descriptor'⟩ := m'
  obtain rfl : owner = owner' := ClassName.binary_inj howner howner' hclass
  obtain rfl : name = name' := hnames
  obtain rfl : descriptor = descriptor' := htext.trans htext'.symm
  rfl

/-- **Targets and methods.** Two methods have the same target only if they have the same owner, name
    and descriptor. So an instruction that is found to call one of the targets of some methods calls
    one of these methods, and no other one nor an overload. -/
theorem target_unambiguous :
    (∀ m m' : MethodRef, m.IsRegular → m'.IsRegular → m.target = m'.target →
      m.owner = m'.owner ∧ m.name = m'.name ∧ m.descriptor = m'.descriptor) ∧
    ∀ (methods : List MethodRef) (T : TargetSet) (i : Instruction) (t : CallTarget),
      (∀ m ∈ methods, m.IsRegular) → (∀ u ∈ T.targets, ∃ m ∈ methods, m.target = .ok u) →
      (ofInstruction i).IsRegular → CallSite.Calls T i t → ofInstruction i ∈ methods := by
  constructor
  · intro m m' h h' heq
    obtain rfl := target_inj h h' heq
    exact ⟨rfl, rfl, rfl⟩
  · intro methods T i t hmethods hT hi hcalls
    obtain ⟨-, htarget, hmem⟩ := hcalls
    obtain ⟨m, hm, hmt⟩ := hT t hmem
    obtain rfl := target_inj (hmethods m hm) hi (hmt.trans htarget.symm)
    exact hm

/-- A method, and an overload of it. -/
def sample : MethodRef := ⟨"a/B", "set", "(I[Lc/D;)V"⟩

def sampleOverload : MethodRef := ⟨"a/B", "set", "(I[[Lc/D;)V"⟩

theorem isRegular_sample : sample.IsRegular :=
  ⟨by decide, by decide, ⟨[⟨0, .base .int⟩, ⟨1, .object "c/D".toList⟩], none⟩, by cbv, by decide⟩

theorem isRegular_sampleOverload : sampleOverload.IsRegular :=
  ⟨by decide, by decide, ⟨[⟨0, .base .int⟩, ⟨2, .object "c/D".toList⟩], none⟩, by cbv, by decide⟩

theorem target_unambiguous_sample :
    sample.target ≠ sampleOverload.target ∧
      ∀ T i t, (∀ u ∈ T.targets, sample.target = .ok u) →
        i.operand = .member "a/B" "set" "(I[[Lc/D;)V" → ¬ CallSite.Calls T i t := by
  constructor
  · intro heq
    have hsame := target_unambiguous.1 _ _ isRegular_sample isRegular_sampleOverload heq
    exact absurd hsame.2.2 (by decide)
  · intro T i t hT hi hcalls
    have hregular : (ofInstruction i).IsRegular := by
      unfold ofInstruction
      rw [hi]
      exact isRegular_sampleOverload
    have hmem := target_unambiguous.2 [sample] T i t (by simpa using isRegular_sample)
      (by simpa using hT) hregular hcalls
    have hdescriptor := congrArg descriptor (List.mem_singleton.mp hmem)
    rw [ofInstruction, hi] at hdescriptor
    exact absurd hdescriptor (by decide)

end MethodRef

namespace CallTarget

open Text

/-! ### One pass for all -/

/-- Whether a space between two characters does not count. -/
def isTight (before after : Char) : Bool :=
  after ∈ ['(', ')', ',', '[', ']'] || before ∈ ['(', ',', '[']

variable {p : Char → Char → Bool} {last : Option Char} {gap : Bool}

theorem ne_space {c : Char} (h : isBlank c = false) : c ≠ ' ' := by
  rintro rfl
  exact absurd h (by decide)

theorem dropBefore_cons {mark c : Char} (h : c ≠ ' ') (cs : List Char) :
    dropBefore mark (c :: cs) = c :: dropBefore mark cs := by
  cases cs <;> simp [dropBefore, h]

theorem dropAfter_cons {mark c : Char} (h : c ≠ mark) (cs : List Char) :
    dropAfter mark (c :: cs) = c :: dropAfter mark cs := by
  cases cs <;> simp [dropAfter, h]

/-- Removing the space before a mark makes the gap before it superfluous. -/
theorem dropBefore_squeeze (mark : Char) (cs : List Char) :
    dropBefore mark (squeeze p last gap cs) =
      squeeze (fun b c => p b c || c == mark) last gap cs := by
  induction cs generalizing last gap with
  | nil => rfl
  | cons c cs ih =>
    cases hc : isBlank c with
    | true => rw [squeeze_blank hc, squeeze_blank hc, ih]
    | false =>
      have hne : c ≠ ' ' := ne_space hc
      rw [squeeze_cons hc, squeeze_cons hc, ← ih]
      unfold separator
      split
      · next b =>
        by_cases hmark : c = mark
        · cases p b c <;> simp [hmark, hmark ▸ hne, dropBefore, dropBefore_cons]
        · cases hp : p b c <;> simp [hp, hmark, hne, dropBefore, dropBefore_cons]
      · simp [dropBefore_cons hne]

/-- Removing the space after a mark makes the gap after it superfluous. -/
theorem dropAfter_cons_squeeze {mark : Char} (hmark : mark ≠ ' ') (b : Char) (cs : List Char) :
    dropAfter mark (b :: squeeze p (some b) gap cs) =
      b :: squeeze (fun b c => p b c || b == mark) (some b) gap cs := by
  induction cs generalizing b gap with
  | nil => rfl
  | cons c cs ih =>
    cases hc : isBlank c with
    | true => rw [squeeze_blank hc, squeeze_blank hc, ih]
    | false =>
      have hne : c ≠ ' ' := ne_space hc
      rw [squeeze_cons hc, squeeze_cons hc, ← ih]
      unfold separator
      split
      · next b' heq =>
        obtain rfl : b = b' := Option.some.inj heq
        by_cases hb : b = mark
        · cases p b c <;> simp [hb, dropAfter, hne]
        · cases hp : p b c <;> simp [hp, hb, dropAfter_cons, hmark.symm]
      · by_cases hb : b = mark
        · simp [hb, dropAfter, hne]
        · simp [dropAfter_cons hb]

theorem dropAfter_squeeze {mark : Char} (hmark : mark ≠ ' ') (cs : List Char) :
    dropAfter mark (squeeze p none gap cs) =
      squeeze (fun b c => p b c || b == mark) none gap cs := by
  induction cs generalizing gap with
  | nil => rfl
  | cons c cs ih =>
    cases hc : isBlank c with
    | true => rw [squeeze_blank hc, squeeze_blank hc, ih]
    | false =>
      rw [squeeze_cons hc, squeeze_cons hc]
      exact dropAfter_cons_squeeze hmark c cs

/-- Normalising a signature is one pass over it: a gap becomes a single space, unless it does not
    count. -/
theorem normaliseChars_eq (cs : List Char) : normaliseChars cs = squeeze isTight none false cs := by
  have hwords : [' '].intercalate (words cs) = squeeze (fun _ _ => false) none false cs :=
    ((squeeze_words cs).1 false).symm
  unfold normaliseChars
  dsimp only
  rw [hwords, dropBefore_squeeze, dropAfter_squeeze (by decide), dropBefore_squeeze,
    dropBefore_squeeze, dropAfter_squeeze (by decide), dropBefore_squeeze,
    dropAfter_squeeze (by decide), dropBefore_squeeze]
  congr 1
  funext b c
  simp only [isTight]
  grind

/-! ### Texts with white space between tokens -/

/-- A text consists of some tokens, with white space in front of them, between them and behind
    them. -/
inductive Spaced : List (List Char) → List Char → Prop where
  | nil {space : List Char} : IsGap space → Spaced [] space
  | cons {space token text : List Char} {tokens : List (List Char)} :
      IsGap space → Spaced tokens text → Spaced (token :: tokens) (space ++ (token ++ text))

/-- Gaps between tokens do not count, nor does one between a character and the first token. -/
def Close : Option Char → List (List Char) → Prop
  | _, [] => True
  | last, token :: tokens =>
    (∀ b ∈ last, ∀ c ∈ token.head?, isTight b c = true) ∧ Close token.getLast? tokens

/-- Squeezing a text leaves the tokens, if no gap between them counts. -/
theorem Spaced.squeeze_eq {tokens : List (List Char)} {text : List Char} (h : Spaced tokens text)
    (htokens : ∀ token ∈ tokens, token ≠ [] ∧ IsSolid token) (hclose : Close last tokens)
    (cs : List Char) :
    ∃ gap', squeeze isTight last gap (text ++ cs) =
      tokens.flatten ++ squeeze isTight (tokens.flatten.getLast?.or last) gap' cs := by
  induction h generalizing last gap with
  | nil hspace => exact ⟨_, squeeze_gap hspace cs⟩
  | @cons space token text tokens hspace _ ih =>
    rw [List.forall_mem_cons] at htokens
    obtain ⟨⟨hne, hsolid⟩, htokens⟩ := htokens
    obtain ⟨hfirst, hclose⟩ := hclose
    obtain ⟨c, rest, rfl⟩ := List.exists_cons_of_ne_nil hne
    have hc : isBlank c = false := hsolid c List.mem_cons_self
    have hrest : IsSolid rest := fun d hd => hsolid d (List.mem_cons_of_mem _ hd)
    -- The first character is close to the last one, so that nothing is written between them.
    have hseparator : separator isTight last (gap || !space.isEmpty) c = [] :=
      separator_superfluous fun b hb => hfirst b hb c rfl
    have hlast : rest.getLast?.or (some c) = (c :: rest).getLast? := by
      rw [List.getLast?_cons]
      cases rest.getLast? <;> rfl
    obtain ⟨gap'', htail⟩ := @ih (c :: rest).getLast? false htokens hclose
    refine ⟨gap'', ?_⟩
    rw [List.append_assoc, List.append_assoc, squeeze_gap hspace, List.cons_append,
      squeeze_cons hc, hseparator, List.nil_append, squeeze_solid hrest, hlast, htail,
      List.flatten_cons, List.getLast?_append]
    simp [List.getLast?_cons]

/-! ### Tokens of a signature -/

/-- The marks of a signature. -/
def marks : List Char :=
  ['(', ')', ',', '[', ']']

/-- A name that has no white space and no mark of a signature in it. -/
def IsPlainName (name : List Char) : Prop :=
  ∀ c ∈ name, isBlank c = false ∧ c ∉ marks

instance (name : List Char) : Decidable (IsPlainName name) :=
  List.decidableBAll _ name

/-- The tokens of a type: a name, and two brackets for each dimension. -/
def typeTokens (t : FieldType) : List (List Char) :=
  t.element.sourceName.toList :: (List.replicate t.dims [['['], [']']]).flatten

def resultTokens (t : MethodType) : List (List Char) :=
  match t.result with
  | none => ["void".toList]
  | some type => typeTokens type

/-- The tokens of parameters, with commas between them. -/
def parameterTokens (types : List FieldType) : List (List Char) :=
  [[',']].intercalate (types.map typeTokens)

/-- A way to write a signature: its tokens with white space anywhere between them, and some between
    the result type and the name. -/
def WrittenAs (t : MethodType) (name text : List Char) : Prop :=
  ∃ front blank back, text = front ++ blank :: back ∧ isBlank blank = true ∧
    Spaced (resultTokens t) front ∧
    Spaced (name :: ['('] :: (parameterTokens t.parameters ++ [[')']])) back

theorem flatten_typeTokens (t : FieldType) : (typeTokens t).flatten = t.sourceName.toList := by
  rw [FieldType.toList_sourceName, typeTokens, List.flatten_cons, FieldType.brackets]
  congr 1
  induction t.dims with
  | zero => rfl
  | succ dims ih => simpa [List.replicate_succ] using ih

theorem flatten_resultTokens (t : MethodType) :
    (resultTokens t).flatten = t.resultName.toList := by
  unfold resultTokens MethodType.resultName
  cases t.result with
  | none => decide
  | some type => exact flatten_typeTokens type

theorem flatten_parameterTokens (types : List FieldType) :
    (parameterTokens types).flatten =
      [','].intercalate (types.map fun type => type.sourceName.toList) := by
  unfold parameterTokens
  induction types with
  | nil => rfl
  | cons type types ih =>
    cases types with
    | nil => simp [List.intercalate, flatten_typeTokens]
    | cons next types => 
      simp only [List.map_cons, List.intercalate_cons_cons, List.flatten_append,
        flatten_typeTokens] at ih ⊢
      rw [ih]
      rfl

/-! ### Which gaps do not count -/

/-- A gap in front of a mark never counts. -/
theorem close_mark {mark : Char} (hmark : mark ∈ marks) {tokens : List (List Char)}
    (h : Close (some mark) tokens) (last : Option Char) : Close last ([mark] :: tokens) := by
  refine ⟨fun b _ c hc => ?_, h⟩
  obtain rfl : mark = c := Option.some.inj hc
  unfold isTight
  rw [Bool.or_eq_true, decide_eq_true_eq]
  exact .inl hmark

theorem close_brackets {rest : List (List Char)} (h : ∀ last, Close last rest) (dims : Nat)
    (last : Option Char) : Close last ((List.replicate dims [['['], [']']]).flatten ++ rest) := by
  induction dims generalizing last with
  | zero => exact h last
  | succ dims ih =>
    rw [List.replicate_succ, List.flatten_cons, List.append_assoc]
    exact close_mark (by decide) (close_mark (by decide) (ih _) _) last

theorem close_typeTokens {b : Char} (hb : b ∈ ['(', ',']) {rest : List (List Char)}
    (h : ∀ last, Close last rest) (t : FieldType) : Close (some b) (typeTokens t ++ rest) := by
  refine ⟨fun b' hb' c _ => ?_, close_brackets h t.dims _⟩
  obtain rfl : b = b' := Option.some.inj hb'
  unfold isTight
  rw [Bool.or_eq_true, decide_eq_true_eq]
  have hopen : ∀ b ∈ ['(', ','], decide (b ∈ ['(', ',', '[']) = true := by
    simp
  exact .inr (hopen b hb)

theorem close_parameterTokens {b : Char} (hb : b ∈ ['(', ',']) (types : List FieldType) :
    Close (some b) (parameterTokens types ++ [[')']]) := by
  have hend : ∀ last, Close last [[')']] := close_mark (by decide) trivial
  unfold parameterTokens
  induction types generalizing b with
  | nil => exact hend _
  | cons type types ih =>
    cases types with
    | nil => simpa [List.intercalate] using close_typeTokens hb hend type
    | cons next types =>
      rw [List.map_cons, List.map_cons, List.intercalate_cons_cons, List.append_assoc,
        List.append_assoc, List.singleton_append]
      refine close_typeTokens hb (close_mark (by decide) ?_) type
      exact @ih ',' (by decide)

/-! ### Names without white space -/

theorem isPlainName_binary {name : String} (h : IsPlainName name.toList) :
    IsPlainName (ClassName.binary name).toList := by
  intro c hc
  rcases ClassName.mem_binary hc with hname | rfl
  · exact h c hname
  · decide

theorem isPlainName_word {word : String} (h : word ∈ typeWords) : IsPlainName word.toList := by
  intro c hc
  have hall : typeWords.all (·.toList.all fun c => !isBlank c && !marks.contains c) = true := by
    decide
  have hword := List.all_eq_true.mp (List.all_eq_true.mp hall word h) c hc
  simpa using hword

theorem isPlainName_element {t : FieldType} (h : ∀ name ∈ t.className?, IsPlainName name) :
    IsPlainName t.element.sourceName.toList := by
  unfold FieldType.className? at h
  cases helem : t.element with
  | base type => exact isPlainName_word type.word_mem
  | object name =>
    rw [helem] at h
    apply isPlainName_binary
    rw [String.toList_ofList]
    exact h name rfl

theorem IsPlainName.isSolid {name : List Char} (h : IsPlainName name) : IsSolid name :=
  fun c hc => (h c hc).1

theorem solid_typeTokens {t : FieldType} (hnamed : t.element.Named)
    (hplain : IsPlainName t.element.sourceName.toList) :
    ∀ token ∈ typeTokens t, token ≠ [] ∧ IsSolid token := by
  unfold typeTokens
  rw [List.forall_mem_cons]
  refine ⟨⟨ElementType.sourceName_ne_nil hnamed, hplain.isSolid⟩, fun token hmem => ?_⟩
  obtain ⟨pair, hpair, hmem⟩ := List.mem_flatten.mp hmem
  rw [List.eq_of_mem_replicate hpair] at hmem
  have hbrackets : ∀ token ∈ [['['], [']']], token ≠ [] ∧ IsSolid token := by decide
  exact hbrackets token hmem

theorem solid_parameterTokens {types : List FieldType}
    (h : ∀ type ∈ types, type.element.Named ∧ IsPlainName type.element.sourceName.toList) :
    ∀ token ∈ parameterTokens types, token ≠ [] ∧ IsSolid token := by
  unfold parameterTokens
  induction types with
  | nil => simp [List.intercalate]
  | cons type types ih =>
    rw [List.forall_mem_cons] at h
    have hfirst := solid_typeTokens h.1.1 h.1.2
    cases types with
    | nil => simpa [List.intercalate] using hfirst
    | cons next types =>
      rw [List.map_cons, List.map_cons, List.intercalate_cons_cons, List.append_assoc,
        List.forall_mem_append, List.forall_mem_append]
      exact ⟨hfirst, by decide, ih h.2⟩

theorem solid_resultTokens {t : MethodType}
    (h : ∀ type ∈ t.result, type.element.Named ∧ IsPlainName type.element.sourceName.toList) :
    ∀ token ∈ resultTokens t, token ≠ [] ∧ IsSolid token := by
  unfold resultTokens
  split
  · decide
  · next type hresult => exact solid_typeTokens (h type hresult).1 (h type hresult).2

/-- A result type ends with a letter of a name or with a closing bracket. -/
theorem last_resultTokens {t : MethodType}
    (h : ∀ type ∈ t.result, type.element.Named ∧ IsPlainName type.element.sourceName.toList) :
    ∃ b, (resultTokens t).flatten.getLast? = some b ∧ b ∉ ['(', ',', '['] := by
  unfold resultTokens
  split
  · exact ⟨'d', by decide, by decide⟩
  · next type hresult =>
    obtain ⟨hnamed, hplain⟩ := h type hresult
    rw [flatten_typeTokens, FieldType.toList_sourceName]
    cases type.dims with
    | zero =>
      have hne := ElementType.sourceName_ne_nil hnamed
      refine ⟨_, by simpa [FieldType.brackets] using List.getLast?_eq_some_getLast hne, ?_⟩
      intro hmem
      have hmark := (hplain _ (List.getLast_mem hne)).2
      exact hmark ((by decide : ['(', ',', '['] ⊆ marks) hmem)
    | succ dims =>
      refine ⟨']', ?_, by decide⟩
      rw [FieldType.brackets, List.replicate_succ', List.flatten_append]
      simp

/-! ### Targets written by hand -/

/-- However a signature is written, normalising it gives the signature. -/
theorem normaliseChars_of_writtenAs {t : MethodType} {name text : List Char}
    (htypes : ∀ type ∈ t.types,
      type.element.Named ∧ IsPlainName type.element.sourceName.toList)
    (hne : name ≠ []) (hname : IsPlainName name) (h : WrittenAs t name text) :
    normaliseChars text = (t.sourceSignature (String.ofList name)).toList := by
  obtain ⟨front, blank, back, rfl, hblank, hfront, hback⟩ := h
  have hresult : ∀ type ∈ t.result,
      type.element.Named ∧ IsPlainName type.element.sourceName.toList :=
    fun type hmem => htypes type (List.mem_append_right _ (Option.mem_toList.mpr hmem))
  have hparameters : ∀ type ∈ t.parameters,
      type.element.Named ∧ IsPlainName type.element.sourceName.toList :=
    fun type hmem => htypes type (List.mem_append_left _ hmem)
  -- The result type, up to the gap that counts.
  have hclose : Close none (resultTokens t) := by
    unfold resultTokens
    split
    · exact ⟨(fun _ hb => nomatch hb), trivial⟩
    · next type _ =>
      have hbrackets := @close_brackets [] (fun _ => trivial) type.dims
      rw [List.append_nil] at hbrackets
      exact ⟨(fun _ hb => nomatch hb), hbrackets _⟩
  obtain ⟨gap, hfirst⟩ :=
    @Spaced.squeeze_eq none false _ _ hfront (solid_resultTokens hresult) hclose (blank :: back)
  obtain ⟨b, hlast, hb⟩ := last_resultTokens hresult
  rw [normaliseChars_eq, hfirst, squeeze_blank hblank, hlast]
  -- The name, with a space in front of it.
  cases hback with
  | @cons space _ text _ hspace hrest =>
    obtain ⟨c, rest, rfl⟩ := List.exists_cons_of_ne_nil hne
    have hc := hname c List.mem_cons_self
    have htight : isTight b c = false := by
      unfold isTight
      rw [Bool.or_eq_false_iff, decide_eq_false_iff_not, decide_eq_false_iff_not]
      exact ⟨hc.2, hb⟩
    have hsolid : IsSolid rest := fun d hd => (hname d (List.mem_cons_of_mem _ hd)).1
    -- The parameters, in which no gap counts.
    have hclosed := close_mark (by decide : '(' ∈ marks)
      (@close_parameterTokens '(' (by decide) t.parameters) (rest.getLast?.or (some c))
    have htokens : ∀ token ∈ ['('] :: (parameterTokens t.parameters ++ [[')']]),
        token ≠ [] ∧ IsSolid token := by
      rw [List.forall_mem_cons, List.forall_mem_append]
      exact ⟨by decide, solid_parameterTokens hparameters, by decide⟩
    obtain ⟨gap', hend⟩ := @Spaced.squeeze_eq _ false _ _ hrest htokens hclosed []
    rw [List.append_nil] at hend
    rw [squeeze_gap hspace, List.cons_append, squeeze_cons hc.1, squeeze_solid hsolid, hend,
      MethodType.toList_sourceSignature, flatten_resultTokens, List.flatten_cons,
      List.flatten_append, flatten_parameterTokens]
    simp [separator, htight, squeeze]

/-- **Targets written by hand.** A target whose class and signature are written with any white space
    between their tokens is the target that a class file names. -/
theorem ofText_of_writtenAs {owner name descriptor className signature : String}
    {type : MethodType} (htype : Descriptor.parseMethod descriptor = .ok type)
    (howner : IsPlainName owner.toList) (hne : name ≠ "") (hname : IsPlainName name.toList)
    (hclasses : ∀ n ∈ type.classNames, IsPlainName n)
    (hclass : Spaced [(ClassName.binary owner).toList] className.toList)
    (hsignature : WrittenAs type name.toList signature.toList) :
    ofMember owner name descriptor = .ok (ofText className signature) := by
  have htypes : ∀ t ∈ type.types, t.element.Named ∧ IsPlainName t.element.sourceName.toList := by
    intro t ht
    refine ⟨(Descriptor.parseMethod_eq_ok htype).2 t ht, isPlainName_element fun n hn => ?_⟩
    exact hclasses n (List.mem_filterMap.mpr ⟨t, ht, hn⟩)
  have hname' : name.toList ≠ [] := fun hnil => hne (String.toList_inj.mp hnil)
  have htrim : Text.trim className = ClassName.binary owner := by
    have hsolid := (isPlainName_binary howner).isSolid
    rw [Text.trim, ← String.toList_inj, String.toList_ofList]
    generalize className.toList = cs at hclass
    cases hclass with
    | cons hbefore hrest =>
      cases hrest with
      | nil hafter => exact trimChars_gaps hbefore hsolid hafter
  have hsig : String.ofList (normaliseChars signature.toList) = type.sourceSignature name := by
    rw [normaliseChars_of_writtenAs htypes hname' hname hsignature, String.ofList_toList,
      String.ofList_toList]
  simp [ofMember, ofText, htype, htrim, hsig, bind, Except.bind, pure, Except.pure]

theorem spaced_foldr {tokens : List (List Char × List Char)} (h : ∀ t ∈ tokens, IsGap t.1)
    {space : List Char} (hspace : IsGap space) :
    Spaced (tokens.map Prod.snd) (tokens.foldr (fun t text => t.1 ++ (t.2 ++ text)) space) := by
  induction tokens with
  | nil => exact .nil hspace
  | cons t tokens ih =>
    rw [List.forall_mem_cons] at h
    exact .cons h.1 (ih h.2)

/-- The types of a method with two parameters. -/
def sampleType : MethodType :=
  ⟨[⟨1, .base .int⟩, ⟨0, .object "c/D".toList⟩], some ⟨1, .base .long⟩⟩

theorem writtenAs_sample :
    WrittenAs sampleType "run".toList "long\t[ ]\u2003run (int[ ],\n c.D\u00a0) ".toList := by
  have hfront := @spaced_foldr [([], "long".toList), (['\t'], ['[']), ([' '], [']'])] (by decide)
    [] (by decide)
  have hback := @spaced_foldr [([], "run".toList), ([' '], ['(']), ([], "int".toList), ([], ['[']),
    ([' '], [']']), ([], [',']), (['\n', ' '], "c.D".toList), (['\u00a0'], [')'])] (by decide)
    [' '] (by decide)
  exact ⟨_, '\u2003', _, rfl, by decide, hfront, hback⟩

theorem ofText_of_writtenAs_sample :
    ofMember "a/B" "run" "([ILc/D;)[J" =
      .ok (ofText " a.B\t" "long\t[ ]\u2003run (int[ ],\n c.D\u00a0) ") := by
  have hread : Descriptor.parseMethod "([ILc/D;)[J" = .ok sampleType := by cbv
  have hclass := @spaced_foldr [([' '], "a.B".toList)] (by decide) ['\t'] (by decide)
  exact ofText_of_writtenAs hread (by decide) (by decide) (by decide) (by decide) hclass
    writtenAs_sample

end CallTarget

end ClassAudit
