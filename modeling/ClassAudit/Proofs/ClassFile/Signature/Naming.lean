import ClassAudit.ClassFile.Signature.Basic

/-! # Classes that a signature names

    Where the text of a signature names a class, said without a list: `Names before r` holds if the
    class `r` is named behind the text `before`. A nested class is named behind what comes in front
    of the dot, and so behind the type arguments of the class around it. `Listed` says that a list
    holds exactly the classes that a text names, in the order of the text; the references of a
    signature are such a list.
-/

namespace ClassAudit.Signature

/-! ### Places in a text -/

/-- What a text names: a class, and the text in front of the place where it is named. -/
abbrev Naming := List Char → Ref → Prop

/-- The same names behind some text. -/
def Naming.behind (front : List Char) (names : Naming) : Naming :=
  fun before r => ∃ place, before = front ++ place ∧ names place r

/-- Each text of a list names something, behind the texts before it. -/
def Naming.ofEach {α : Type} (text : α → List Char) (names : α → Naming) (xs : List α) : Naming :=
  fun before r => ∃ xs₁ x xs₂, xs = xs₁ ++ x :: xs₂ ∧ (names x).behind (xs₁.flatMap text) before r

mutual

/-- A reference type names a class. -/
inductive RefType.Names : Position → RefType → Naming where
  | object {p : Position} {type : ClassType} {before : List Char} {r : Ref} :
      ClassType.Names p type before r → RefType.Names p (.object type) before r
  | array {p : Position} {element : RefType} {before : List Char} {r : Ref} :
      RefType.Names p element before r → RefType.Names p (.array element) ('[' :: before) r

/-- A class type names a class: itself, one of its arguments, or one that is nested in it. -/
inductive ClassType.Names : Position → ClassType → Naming where
  | self {p : Position} {name : List Char} {args : Args} {inner : Inner} :
      ClassType.Names p (.mk name args inner) [] ⟨p, String.ofList name⟩
  | argument {p : Position} {name : List Char} {args : Args} {inner : Inner} {before : List Char}
      {r : Ref} : Args.Names args before r →
      ClassType.Names p (.mk name args inner) ('L' :: name ++ before) r
  | nested {p : Position} {name : List Char} {args : Args} {inner : Inner} {before : List Char}
      {r : Ref} : Inner.Names p (String.ofList name) inner before r →
      ClassType.Names p (.mk name args inner) ('L' :: name ++ args.text ++ before) r

inductive Args.Names : Args → Naming where
  | given {items : ArgList} {before : List Char} {r : Ref} :
      ArgList.Names items before r → Args.Names (.given items) ('<' :: before) r

inductive ArgList.Names : ArgList → Naming where
  | any {rest : ArgList} {before : List Char} {r : Ref} :
      ArgList.Names rest before r → ArgList.Names (.any rest) ('*' :: before) r
  | head {variance : Variance} {type : RefType} {rest : ArgList} {before : List Char} {r : Ref} :
      RefType.Names .typeArgument type before r →
      ArgList.Names (.cons variance type rest) (variance.sign ++ before) r
  | tail {variance : Variance} {type : RefType} {rest : ArgList} {before : List Char} {r : Ref} :
      ArgList.Names rest before r →
      ArgList.Names (.cons variance type rest) (variance.sign ++ type.text ++ before) r

/-- A chain of classes nested in `outer` names a class. -/
inductive Inner.Names : Position → String → Inner → Naming where
  | self {p : Position} {outer : String} {name : List Char} {args : Args} {rest : Inner} :
      Inner.Names p outer (.cons name args rest) [] ⟨p, outer ++ "$" ++ String.ofList name⟩
  | argument {p : Position} {outer : String} {name : List Char} {args : Args} {rest : Inner}
      {before : List Char} {r : Ref} : Args.Names args before r →
      Inner.Names p outer (.cons name args rest) ('.' :: name ++ before) r
  | nested {p : Position} {outer : String} {name : List Char} {args : Args} {rest : Inner}
      {before : List Char} {r : Ref} :
      Inner.Names p (outer ++ "$" ++ String.ofList name) rest before r →
      Inner.Names p outer (.cons name args rest) ('.' :: name ++ args.text ++ before) r

end

inductive JavaType.Names (p : Position) : JavaType → Naming where
  | ref {type : RefType} {before : List Char} {r : Ref} :
      type.Names p before r → Names p (.ref type) before r

/-- The text of a type parameter up to its interface bounds. -/
def TypeParam.frontText (param : TypeParam) : List Char :=
  param.name ++ ':' :: param.classBound.elim [] RefType.text

/-- A type parameter names a class: as its class bound or as an interface bound. -/
inductive TypeParam.Names (param : TypeParam) : Naming where
  | classBound {bound : RefType} {before : List Char} {r : Ref} :
      param.classBound = some bound → bound.Names .bound before r →
      Names param (param.name ++ ':' :: before) r
  | interfaceBound {before : List Char} {r : Ref} :
      Naming.ofEach (fun bound => ':' :: bound.text)
        (fun bound => (bound.Names .bound).behind [':']) param.interfaceBounds before r →
      Names param (param.frontText ++ before) r

inductive ParamsName : Option (List TypeParam) → Naming where
  | given {params : List TypeParam} {before : List Char} {r : Ref} :
      Naming.ofEach TypeParam.text TypeParam.Names params before r →
      ParamsName (some params) ('<' :: before) r

inductive OfClass.Names (s : OfClass) : Naming where
  | typeParam {before : List Char} {r : Ref} :
      ParamsName s.typeParams before r → Names s before r
  | superclass {before : List Char} {r : Ref} :
      s.superclass.Names .superclass before r → Names s (typeParamsText s.typeParams ++ before) r
  | interface {before : List Char} {r : Ref} :
      Naming.ofEach ClassType.text (ClassType.Names .interface) s.interfaces before r →
      Names s (typeParamsText s.typeParams ++ s.superclass.text ++ before) r

inductive Thrown.Names : Thrown → Naming where
  | object {type : ClassType} {before : List Char} {r : Ref} :
      type.Names .throws before r → Names (.object type) ('^' :: before) r

def OfMethod.resultText (s : OfMethod) : List Char :=
  s.result.elim ['V'] JavaType.text

/-- The text of a method up to the closing parenthesis. -/
def OfMethod.frontText (s : OfMethod) : List Char :=
  typeParamsText s.typeParams ++ '(' :: s.parameters.flatMap JavaType.text

inductive OfMethod.Names (s : OfMethod) : Naming where
  | typeParam {before : List Char} {r : Ref} :
      ParamsName s.typeParams before r → Names s before r
  | parameter {before : List Char} {r : Ref} :
      Naming.ofEach JavaType.text (JavaType.Names .parameter) s.parameters before r →
      Names s (typeParamsText s.typeParams ++ '(' :: before) r
  | result {type : JavaType} {before : List Char} {r : Ref} :
      s.result = some type → type.Names .result before r →
      Names s (s.frontText ++ ')' :: before) r
  | throws {before : List Char} {r : Ref} :
      Naming.ofEach Thrown.text Thrown.Names s.throws before r →
      Names s (s.frontText ++ ')' :: s.resultText ++ before) r

/-! ### Lists of what is named -/

/-- The list holds exactly what a text names, in the order of the text. -/
def Listed (text : List Char) (names : Naming) (refs : List Ref) : Prop :=
  ∃ places : List (List Char × Ref),
    places.map Prod.snd = refs ∧
    places.Pairwise (fun x y => x.1.length < y.1.length) ∧
    (∀ before r, (before, r) ∈ places ↔ names before r) ∧
    ∀ place ∈ places, place.1 <+: text ∧ place.1.length < text.length

namespace Listed

variable {text text₁ text₂ : List Char} {names names₁ names₂ : Naming}
  {refs refs₁ refs₂ : List Ref}

theorem congr (h : Listed text₁ names₁ refs) (htext : text₁ = text₂)
    (hnames : ∀ before r, names₂ before r ↔ names₁ before r) : Listed text₂ names₂ refs := by
  obtain ⟨places, hrefs, horder, hmem, hin⟩ := h
  subst htext
  exact ⟨places, hrefs, horder, fun before r => (hmem before r).trans (hnames before r).symm, hin⟩

theorem nil (text : List Char) (h : ∀ before r, ¬ names before r) : Listed text names [] :=
  ⟨[], rfl, .nil, fun before r => by simp [h before r], by simp⟩

/-- A text that names one class, at its start. -/
theorem single (r : Ref) (htext : text ≠ []) :
    Listed text (fun before r' => before = [] ∧ r' = r) [r] := by
  refine ⟨[([], r)], rfl, List.pairwise_singleton _ _, by simp, ?_⟩
  intro place hplace
  obtain rfl := List.mem_singleton.mp hplace
  exact ⟨List.nil_prefix, List.length_pos_iff.mpr htext⟩

/-- Two texts in a row: what the second names stands behind the whole of the first. -/
theorem append (h₁ : Listed text₁ names₁ refs₁) (h₂ : Listed text₂ names₂ refs₂) :
    Listed (text₁ ++ text₂) (fun before r => names₁ before r ∨ names₂.behind text₁ before r)
      (refs₁ ++ refs₂) := by
  obtain ⟨places₁, rfl, horder₁, hmem₁, hin₁⟩ := h₁
  obtain ⟨places₂, rfl, horder₂, hmem₂, hin₂⟩ := h₂
  refine ⟨places₁ ++ places₂.map (fun x => (text₁ ++ x.1, x.2)), by simp, ?_, ?_, ?_⟩
  · rw [List.pairwise_append, List.pairwise_map]
    refine ⟨horder₁, horder₂.imp (by simp), ?_⟩
    -- A place in the first text is shorter than that text.
    intro x hx y hy
    obtain ⟨z, -, rfl⟩ := List.mem_map.mp hy
    have := (hin₁ x hx).2
    rw [List.length_append]
    omega
  · intro before r
    rw [List.mem_append, hmem₁, List.mem_map]
    refine or_congr_right ⟨?_, ?_⟩
    · rintro ⟨⟨place, r'⟩, hplace, heq⟩
      obtain ⟨rfl, rfl⟩ := Prod.mk.inj heq
      exact ⟨place, rfl, (hmem₂ _ _).mp hplace⟩
    · rintro ⟨place, rfl, hplace⟩
      exact ⟨(place, r), (hmem₂ _ _).mpr hplace, rfl⟩
  · intro x hx
    rw [List.length_append]
    obtain hx | hx := List.mem_append.mp hx
    · have hin := hin₁ x hx
      exact ⟨hin.1.trans (List.prefix_append _ _), by omega⟩
    · obtain ⟨z, hz, rfl⟩ := List.mem_map.mp hx
      have hin := hin₂ z hz
      exact ⟨(List.prefix_append_right_inj _).mpr hin.1, by simpa using hin.2⟩

theorem behind (front : List Char) (h : Listed text names refs) :
    Listed (front ++ text) (names.behind front) refs := by
  refine ((nil front fun _ _ => not_false).append h).congr rfl fun before r => ?_
  rw [false_or]

theorem extend (h : Listed text names refs) (tail : List Char) :
    Listed (text ++ tail) names refs := by
  have h' := h.append (nil tail fun _ _ => not_false)
  rw [List.append_nil] at h'
  refine h'.congr rfl fun before r => ?_
  simp [Naming.behind]

theorem option {α : Type} {text : α → List Char} {names : α → Naming} {refs : α → List Ref}
    (h : ∀ x, Listed (text x) (names x) (refs x)) (absent : List Char) (part : Option α) :
    Listed (part.elim absent text) (fun before r => ∃ x, part = some x ∧ names x before r)
      (part.elim [] refs) := by
  cases part with
  | none => exact nil _ fun before r => by simp
  | some x => exact (h x).congr rfl fun before r => by simp

theorem flatMap {α : Type} {text : α → List Char} {names : α → Naming} {refs : α → List Ref}
    (h : ∀ x, Listed (text x) (names x) (refs x)) (xs : List α) :
    Listed (xs.flatMap text) (Naming.ofEach text names xs) (xs.flatMap refs) := by
  induction xs with
  | nil => exact nil _ fun before r => by simp [Naming.ofEach]
  | cons x xs ih =>
    refine ((h x).append ih).congr rfl fun before r => ⟨?_, ?_⟩
    · rintro ⟨xs₁, y, xs₂, hxs, place, rfl, hplace⟩
      cases xs₁ with
      | nil =>
        obtain ⟨rfl, rfl⟩ := List.cons.inj hxs
        exact .inl hplace
      | cons z xs₁ =>
        obtain ⟨rfl, rfl⟩ := List.cons.inj hxs
        exact .inr ⟨_, List.append_assoc _ _ _, xs₁, y, xs₂, rfl, place, rfl, hplace⟩
    · rintro (hplace | ⟨_, rfl, xs₁, y, xs₂, rfl, place, rfl, hplace⟩)
      · exact ⟨[], x, xs, rfl, before, rfl, hplace⟩
      · exact ⟨x :: xs₁, y, xs₂, rfl, place, (List.append_assoc _ _ _).symm, hplace⟩

end Listed

/-! ### The references of a tree -/

mutual

/-- The references of a reference type are the classes that it names, in order. -/
theorem RefType.listed (p : Position) :
    (type : RefType) → Listed type.text (type.Names p) (type.refs p)
  | .object type => by
    refine (type.listed p).congr rfl fun before r => ⟨?_, .object⟩
    rintro ⟨h⟩
    exact h
  | .typeVar name => .nil _ fun before r => by rintro ⟨⟩
  | .baseArray element => .nil _ fun before r => by rintro ⟨⟩
  | .array element => by
    refine ((element.listed p).behind ['[']).congr rfl fun before r => ⟨?_, ?_⟩
    · rintro (_ | ⟨h⟩)
      exact ⟨_, rfl, h⟩
    · rintro ⟨place, rfl, h⟩
      exact .array h

theorem ClassType.listed (p : Position) :
    (type : ClassType) → Listed type.text (type.Names p) (type.refs p)
  | .mk name args inner => by
    have hself := Listed.single ⟨p, String.ofList name⟩ (List.cons_ne_nil 'L' name)
    refine (((hself.append args.listed).append (inner.listed p _)).extend [';']).congr rfl
      fun before r => ⟨?_, ?_⟩
    · rintro (_ | h | h)
      · exact .inl (.inl ⟨rfl, rfl⟩)
      · exact .inl (.inr ⟨_, rfl, h⟩)
      · exact .inr ⟨_, rfl, h⟩
    · rintro ((⟨rfl, rfl⟩ | ⟨place, rfl, h⟩) | ⟨place, rfl, h⟩)
      · exact .self
      · exact .argument h
      · exact .nested h

theorem Args.listed : (args : Args) → Listed args.text args.Names args.refs
  | .absent => .nil _ fun before r => by rintro ⟨⟩
  | .given items => by
    refine ((items.listed.behind ['<']).extend ['>']).congr rfl fun before r => ⟨?_, ?_⟩
    · rintro ⟨h⟩
      exact ⟨_, rfl, h⟩
    · rintro ⟨place, rfl, h⟩
      exact .given h

theorem ArgList.listed : (items : ArgList) → Listed items.text items.Names items.refs
  | .nil => .nil _ fun before r => by rintro ⟨⟩
  | .any rest => by
    refine (rest.listed.behind ['*']).congr rfl fun before r => ⟨?_, ?_⟩
    · rintro ⟨h⟩
      exact ⟨_, rfl, h⟩
    · rintro ⟨place, rfl, h⟩
      exact .any h
  | .cons variance type rest => by
    refine (((type.listed .typeArgument).behind variance.sign).append rest.listed).congr rfl
      fun before r => ⟨?_, ?_⟩
    · rintro (_ | h | h)
      · exact .inl ⟨_, rfl, h⟩
      · exact .inr ⟨_, rfl, h⟩
    · rintro (⟨place, rfl, h⟩ | ⟨place, rfl, h⟩)
      · exact .head h
      · exact .tail h

theorem Inner.listed (p : Position) (outer : String) :
    (inner : Inner) → Listed inner.text (inner.Names p outer) (inner.refs p outer)
  | .nil => .nil _ fun before r => by rintro ⟨⟩
  | .cons name args rest => by
    have hself := Listed.single ⟨p, outer ++ "$" ++ String.ofList name⟩ (List.cons_ne_nil '.' name)
    refine ((hself.append args.listed).append (rest.listed p _)).congr rfl
      fun before r => ⟨?_, ?_⟩
    · rintro (_ | h | h)
      · exact .inl (.inl ⟨rfl, rfl⟩)
      · exact .inl (.inr ⟨_, rfl, h⟩)
      · exact .inr ⟨_, rfl, h⟩
    · rintro ((⟨rfl, rfl⟩ | ⟨place, rfl, h⟩) | ⟨place, rfl, h⟩)
      · exact .self
      · exact .argument h
      · exact .nested h

end

theorem JavaType.listed (p : Position) :
    (type : JavaType) → Listed type.text (type.Names p) (type.refs p)
  | .base type => .nil _ fun before r => by rintro ⟨⟩
  | .ref type => by
    refine (type.listed p).congr rfl fun before r => ⟨?_, .ref⟩
    rintro ⟨h⟩
    exact h

theorem TypeParam.text_eq (param : TypeParam) :
    param.text =
      param.frontText ++ param.interfaceBounds.flatMap fun bound => ':' :: bound.text := by
  unfold TypeParam.text TypeParam.frontText
  cases param.classBound <;> rfl

theorem TypeParam.refs_eq (param : TypeParam) :
    param.refs = param.classBound.elim [] (RefType.refs .bound) ++
      param.interfaceBounds.flatMap (RefType.refs .bound) := by
  unfold TypeParam.refs
  cases param.classBound <;> rfl

theorem TypeParam.listed (param : TypeParam) : Listed param.text param.Names param.refs := by
  rw [param.text_eq, param.refs_eq]
  have hclass := Listed.option (RefType.listed .bound) [] param.classBound
  have hinterfaces := Listed.flatMap
    (fun bound : RefType => (bound.listed .bound).behind [':']) param.interfaceBounds
  refine (((hclass.behind [':']).behind param.name).append hinterfaces).congr rfl
    fun before r => ⟨?_, ?_⟩
  · rintro (⟨hbound, h⟩ | h)
    · exact .inl ⟨_, rfl, _, rfl, _, hbound, h⟩
    · exact .inr ⟨_, rfl, h⟩
  · rintro (⟨_, rfl, place, rfl, bound, hbound, h⟩ | ⟨place, rfl, h⟩)
    · exact .classBound hbound h
    · exact .interfaceBound h

theorem listed_typeParams (params : Option (List TypeParam)) :
    Listed (typeParamsText params) (ParamsName params) (typeParamsRefs params) := by
  cases params with
  | none => exact .nil _ fun before r => by rintro ⟨⟩
  | some params =>
    refine (((Listed.flatMap TypeParam.listed params).behind ['<']).extend ['>']).congr rfl
      fun before r => ⟨?_, ?_⟩
    · rintro ⟨h⟩
      exact ⟨_, rfl, h⟩
    · rintro ⟨place, rfl, h⟩
      exact .given h

/-- The references of a class's generic type are the classes that it names, in order. -/
theorem OfClass.listed (s : OfClass) : Listed s.text s.Names s.refs := by
  refine (((listed_typeParams s.typeParams).append (s.superclass.listed .superclass)).append
    (Listed.flatMap (ClassType.listed .interface) s.interfaces)).congr rfl fun before r => ⟨?_, ?_⟩
  · rintro (h | h | h)
    · exact .inl (.inl h)
    · exact .inl (.inr ⟨_, rfl, h⟩)
    · exact .inr ⟨_, rfl, h⟩
  · rintro ((h | ⟨place, rfl, h⟩) | ⟨place, rfl, h⟩)
    · exact .typeParam h
    · exact .superclass h
    · exact .interface h

theorem Thrown.listed (thrown : Thrown) : Listed thrown.text thrown.Names thrown.refs := by
  cases thrown with
  | typeVar name => exact .nil _ fun before r => by rintro ⟨⟩
  | object type =>
    refine ((type.listed .throws).behind ['^']).congr rfl fun before r => ⟨?_, ?_⟩
    · rintro ⟨h⟩
      exact ⟨_, rfl, h⟩
    · rintro ⟨place, rfl, h⟩
      exact .object h

theorem OfMethod.text_eq (s : OfMethod) :
    s.text = s.frontText ++ ')' :: s.resultText ++ s.throws.flatMap Thrown.text := by
  unfold OfMethod.text OfMethod.resultText
  cases s.result <;> rfl

theorem OfMethod.refs_eq (s : OfMethod) :
    s.refs = typeParamsRefs s.typeParams ++ s.parameters.flatMap (JavaType.refs .parameter) ++
      s.result.elim [] (JavaType.refs .result) ++ s.throws.flatMap Thrown.refs := by
  unfold OfMethod.refs
  cases s.result <;> rfl

/-- The references of a method's generic type are the classes that it names, in order. -/
theorem OfMethod.listed (s : OfMethod) : Listed s.text s.Names s.refs := by
  rw [s.text_eq, s.refs_eq]
  have hparams := (Listed.flatMap (JavaType.listed .parameter) s.parameters).behind ['(']
  have hresult := (Listed.option (JavaType.listed .result) ['V'] s.result).behind [')']
  refine ((((listed_typeParams s.typeParams).append hparams).append hresult).append
    (Listed.flatMap Thrown.listed s.throws)).congr rfl fun before r => ⟨?_, ?_⟩
  · rintro (h | h | ⟨htype, h⟩ | h)
    · exact .inl (.inl (.inl h))
    · exact .inl (.inl (.inr ⟨_, rfl, _, rfl, h⟩))
    · exact .inl (.inr ⟨_, rfl, _, rfl, _, htype, h⟩)
    · exact .inr ⟨_, rfl, h⟩
  · rintro (((h | ⟨_, rfl, place, rfl, h⟩) | ⟨_, rfl, place, rfl, type, htype, h⟩) |
      ⟨place, rfl, h⟩)
    · exact .typeParam h
    · exact .parameter h
    · exact .result htype h
    · exact .throws h

end ClassAudit.Signature
