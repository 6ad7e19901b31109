import ClassAudit.Proofs.ClassFile.MethodType

/-! # The grammar of descriptors

    `FieldText` and `MethodText` say which texts are descriptors, what source code calls the types
    in them, and which classes these types name. They are built from the text alone: a letter, a
    name between an `L` and a semicolon, a bracket in front of another type. Reading accepts
    exactly these texts. `Descriptor.classNames` does not read a descriptor but hunts for an `L`
    and the next semicolon; on every descriptor it finds the classes of the types, since no `L`
    outside of a name is met and a name ends at the first semicolon.
-/

namespace ClassAudit.Descriptor

variable {text : List Char} {name s : String} {classes names : List String}

/-! ### Texts -/

/-- The letters of the base types, and their words in source code. -/
def baseWords : List (Char × String) :=
  [('B', "byte"), ('C', "char"), ('D', "double"), ('F', "float"), ('I', "int"), ('J', "long"),
    ('S', "short"), ('Z', "boolean")]

/-- A text writes one type. Source code calls it `name`, and `classes` holds the internal name of
    its class, if it has one. -/
inductive FieldText : List Char → String → List String → Prop where
  | base {letter : Char} {word : String} :
      (letter, word) ∈ baseWords → FieldText [letter] word []
  /-- The name of a class may hold any character but the semicolon. -/
  | object {name : List Char} : name ≠ [] → ';' ∉ name →
      FieldText ('L' :: (name ++ [';']))
        (String.ofList (name.map fun c => if c = '/' then '.' else c)) [String.ofList name]
  | array {text : List Char} {name : String} {classes : List String} :
      FieldText text name classes → FieldText ('[' :: text) (name ++ "[]") classes

/-- A text writes types one after the other. -/
inductive ParameterTexts : List Char → List String → List String → Prop where
  | nil : ParameterTexts [] [] []
  | cons {text texts : List Char} {name : String} {names classes classes' : List String} :
      FieldText text name classes → ParameterTexts texts names classes' →
      ParameterTexts (text ++ texts) (name :: names) (classes ++ classes')

/-- A text writes the result of a method, which is a type or nothing. -/
inductive ResultText : List Char → String → List String → Prop where
  | void : ResultText ['V'] "void" []
  | type {text : List Char} {name : String} {classes : List String} :
      FieldText text name classes → ResultText text name classes

/-- A text writes the types of a method. Source code calls the parameters `names` and the result
    `name`; the classes of the parameters come before that of the result. -/
inductive MethodText : List Char → List String → String → List String → Prop where
  | mk {parameters result : List Char} {names : List String} {name : String}
      {classes classes' : List String} :
      ParameterTexts parameters names classes → ResultText result name classes' →
      MethodText ('(' :: (parameters ++ ')' :: result)) names name (classes ++ classes')

/-! ### Texts and trees -/

theorem mem_baseWords_iff {letter : Char} {word : String} :
    (letter, word) ∈ baseWords ↔ ∃ type : BaseType, letter = type.letter ∧ word = type.word := by
  constructor
  · intro h
    simp only [baseWords, List.mem_cons, Prod.mk.injEq, List.not_mem_nil, or_false] at h
    rcases h with h | h | h | h | h | h | h | h
    · exact ⟨.byte, h⟩
    · exact ⟨.char, h⟩
    · exact ⟨.double, h⟩
    · exact ⟨.float, h⟩
    · exact ⟨.int, h⟩
    · exact ⟨.long, h⟩
    · exact ⟨.short, h⟩
    · exact ⟨.boolean, h⟩
  · rintro ⟨type, rfl, rfl⟩
    cases type <;> simp [baseWords, BaseType.letter, BaseType.word]

/-- The class that a type names, as a list. -/
def classesOf (t : FieldType) : List String :=
  t.className?.toList.map String.ofList

theorem flatMap_classesOf (types : List FieldType) :
    types.flatMap classesOf = (types.filterMap FieldType.className?).map String.ofList := by
  induction types with
  | nil => rfl
  | cons t types ih =>
    rw [List.flatMap_cons, ih, List.filterMap_cons, classesOf]
    cases t.className? <;> rfl

theorem sourceName_succ (dims : Nat) (e : ElementType) :
    FieldType.sourceName ⟨dims + 1, e⟩ = FieldType.sourceName ⟨dims, e⟩ ++ "[]" := by
  rw [← String.toList_inj]
  simp [FieldType.toList_sourceName, FieldType.brackets, List.replicate_succ']

/-- A type writes its descriptor. The induction is on its dimensions. -/
theorem fieldText_text {t : FieldType} (h : t.element.WellFormed) :
    FieldText t.text t.sourceName (classesOf t) := by
  obtain ⟨dims, e⟩ := t
  induction dims with
  | zero =>
    cases e with
    | base type =>
      have hword : FieldType.sourceName ⟨0, .base type⟩ = type.word := by
        simp [FieldType.sourceName]
      rw [hword]
      exact .base (mem_baseWords_iff.mpr ⟨type, rfl, rfl⟩)
    | object name =>
      have hname : FieldType.sourceName ⟨0, .object name⟩ =
          String.ofList (name.map fun c => if c = '/' then '.' else c) := by
        simp [FieldType.sourceName, ClassName.binary]
      rw [hname]
      exact .object h.1 h.2
  | succ dims ih =>
    rw [sourceName_succ]
    exact .array (ih h)

theorem exists_of_fieldText (h : FieldText text name classes) :
    ∃ t : FieldType, t.element.WellFormed ∧
      text = t.text ∧ name = t.sourceName ∧ classes = classesOf t := by
  induction h with
  | base hword =>
    obtain ⟨type, rfl, rfl⟩ := mem_baseWords_iff.mp hword
    exact ⟨⟨0, .base type⟩, trivial, rfl, by simp [FieldType.sourceName], rfl⟩
  | @object name hname hfree =>
    exact ⟨⟨0, .object name⟩, ⟨hname, hfree⟩, rfl,
      by simp [FieldType.sourceName, ClassName.binary], rfl⟩
  | array _ ih =>
    obtain ⟨⟨dims, e⟩, hwf, rfl, rfl, rfl⟩ := ih
    exact ⟨⟨dims + 1, e⟩, hwf, rfl, (sourceName_succ dims e).symm, rfl⟩

theorem parameterTexts_iff :
    ParameterTexts text names classes ↔ ∃ types : List FieldType,
      (∀ t ∈ types, t.element.WellFormed) ∧ text = types.flatMap FieldType.text ∧
        names = types.map FieldType.sourceName ∧ classes = types.flatMap classesOf := by
  constructor
  · intro h
    induction h with
    | nil => exact ⟨[], by simp, rfl, rfl, rfl⟩
    | cons hfirst _ ih =>
      obtain ⟨t, ht, rfl, rfl, rfl⟩ := exists_of_fieldText hfirst
      obtain ⟨types, htypes, rfl, rfl, rfl⟩ := ih
      exact ⟨t :: types, List.forall_mem_cons.mpr ⟨ht, htypes⟩, rfl, rfl, rfl⟩
  · rintro ⟨types, hwf, rfl, rfl, rfl⟩
    induction types with
    | nil => exact .nil
    | cons t types ih =>
      obtain ⟨ht, htypes⟩ := List.forall_mem_cons.mp hwf
      exact .cons (fieldText_text ht) (ih htypes)

theorem resultText_iff :
    ResultText text name classes ↔ ∃ result : Option FieldType,
      (∀ t ∈ result, t.element.WellFormed) ∧ text = MethodType.resultText result ∧
        name = result.elim "void" FieldType.sourceName ∧
        classes = result.elim [] classesOf := by
  constructor
  · rintro (_ | h)
    · exact ⟨none, by simp, rfl, rfl, rfl⟩
    · obtain ⟨t, ht, rfl, rfl, rfl⟩ := exists_of_fieldText h
      exact ⟨some t, by simpa using ht, rfl, rfl, rfl⟩
  · rintro ⟨result, hwf, rfl, rfl, rfl⟩
    cases result with
    | none => exact .void
    | some t => exact .type (fieldText_text (hwf t rfl))

theorem fieldText_iff_parseField :
    FieldText s.toList name classes ↔
      ∃ t, parseField s = .ok t ∧ name = t.sourceName ∧ classes = classesOf t := by
  constructor
  · intro h
    obtain ⟨t, hwf, htext, hname, hclasses⟩ := exists_of_fieldText h
    exact ⟨t, parseField_eq_ok_iff.mpr ⟨htext, hwf⟩, hname, hclasses⟩
  · rintro ⟨t, hparse, rfl, rfl⟩
    obtain ⟨htext, hwf⟩ := parseField_eq_ok_iff.mp hparse
    rw [htext]
    exact fieldText_text hwf

theorem resultName_eq (t : MethodType) :
    t.resultName = t.result.elim "void" FieldType.sourceName := by
  unfold MethodType.resultName
  cases t.result <;> rfl

theorem methodText_iff_parseMethod :
    MethodText s.toList names name classes ↔
      ∃ t, parseMethod s = .ok t ∧ names = t.parameters.map FieldType.sourceName ∧
        name = t.resultName ∧ classes = t.classNames.map String.ofList := by
  have hsplit : ∀ t : MethodType, t.classNames.map String.ofList =
      t.parameters.flatMap classesOf ++ t.result.elim [] classesOf := by
    intro t
    rw [MethodType.classNames, ← flatMap_classesOf, MethodType.types]
    cases t.result <;> simp
  constructor
  · intro h
    generalize hs : s.toList = text at h
    obtain ⟨hparameters, hresult⟩ := h
    obtain ⟨types, hwf, rfl, rfl, rfl⟩ := parameterTexts_iff.mp hparameters
    obtain ⟨result, hresultWf, rfl, rfl, rfl⟩ := resultText_iff.mp hresult
    refine ⟨⟨types, result⟩, parseMethod_eq_ok_iff.mpr ⟨?_, ?_⟩, rfl,
      (resultName_eq ⟨types, result⟩).symm, (hsplit ⟨types, result⟩).symm⟩
    · rw [hs, MethodType.text_eq, List.cons_append]
    · rw [MethodType.types, List.forall_mem_append]
      exact ⟨hwf, fun t ht => hresultWf t (Option.mem_toList.mp ht)⟩
  · rintro ⟨t, hparse, rfl, rfl, rfl⟩
    obtain ⟨htext, hwf⟩ := parseMethod_eq_ok_iff.mp hparse
    rw [MethodType.types, List.forall_mem_append] at hwf
    rw [htext, MethodType.text_eq, List.cons_append, hsplit, resultName_eq]
    exact .mk (parameterTexts_iff.mpr ⟨_, hwf.1, rfl, rfl, rfl⟩)
      (resultText_iff.mpr ⟨_, fun t ht => hwf.2 t (Option.mem_toList.mpr ht), rfl, rfl, rfl⟩)

/-- Descriptors are accepted exactly by their grammar, and then the names of their types are given
    in order. -/
theorem parse_iff_grammar :
    (∀ (s : String) (names : List String) (name : String),
      (parseMethod s).map (fun t => (t.parameters.map FieldType.sourceName, t.resultName)) =
          .ok (names, name) ↔
        ∃ classes, MethodText s.toList names name classes) ∧
    ∀ s name : String,
      (parseField s).map FieldType.sourceName = .ok name ↔
        ∃ classes, FieldText s.toList name classes := by
  refine ⟨fun s names name => ?_, fun s name => ?_⟩
  · simp only [methodText_iff_parseMethod]
    cases parseMethod s with
    | error e => simp [Except.map]
    | ok t => simp [Except.map, eq_comm]
  · simp only [fieldText_iff_parseField]
    cases parseField s with
    | error e => simp [Except.map]
    | ok t => simp [Except.map, eq_comm]

/-! ### Names found in a descriptor -/

theorem mentioned_cons {c : Char} (h : c ≠ 'L') (rest : List Char) :
    mentioned (c :: rest) = mentioned rest := by
  rw [mentioned, if_neg h]

/-- What an `L` opens is closed by the first semicolon, whatever else the name holds. -/
theorem mentioned_object {name : List Char} (h : ';' ∉ name) (rest : List Char) :
    mentioned ('L' :: (name ++ ';' :: rest)) = name :: mentioned rest := by
  obtain ⟨htake, hdrop⟩ := eq_append_cons_iff.mp
    ⟨show name ++ ';' :: rest = name ++ ';' :: rest from rfl, h⟩
  rw [mentioned, if_pos rfl]
  split
  · next hnil =>
    rw [hdrop] at hnil
    cases hnil
  · next c after hcons =>
    obtain rfl : rest = after := by
      rw [hdrop] at hcons
      exact (List.cons.inj hcons).2
    rw [htake]

theorem mentioned_fieldText (h : FieldText text name classes) (rest : List Char) :
    (mentioned (text ++ rest)).map String.ofList =
      classes ++ (mentioned rest).map String.ofList := by
  induction h with
  | @base letter word hword =>
    -- No base type has the letter that opens a name.
    have hletter : letter ≠ 'L' := by
      rintro rfl
      simp [baseWords] at hword
    rw [List.singleton_append, mentioned_cons hletter, List.nil_append]
  | @object name _ hfree =>
    rw [List.cons_append, List.append_assoc, List.singleton_append, mentioned_object hfree]
    rfl
  | array _ ih => rw [List.cons_append, mentioned_cons (by decide), ih]

theorem mentioned_parameterTexts (h : ParameterTexts text names classes) (rest : List Char) :
    (mentioned (text ++ rest)).map String.ofList =
      classes ++ (mentioned rest).map String.ofList := by
  induction h with
  | nil => rfl
  | cons hfirst _ ih => rw [List.append_assoc, mentioned_fieldText hfirst, ih, List.append_assoc]

theorem classNames_of_fieldText (h : FieldText s.toList name classes) : classNames s = classes := by
  have hfound := mentioned_fieldText h []
  rw [List.append_nil] at hfound
  rw [classNames, hfound]
  simp [mentioned]

theorem classNames_of_methodText (h : MethodText s.toList names name classes) :
    classNames s = classes := by
  rw [classNames]
  generalize s.toList = text at h
  obtain ⟨hparameters, hresult⟩ := h
  -- The parentheses open no name, and the result is the last text.
  rw [mentioned_cons (by decide), mentioned_parameterTexts hparameters,
    mentioned_cons (by decide)]
  congr 1
  cases hresult with
  | void => simp [mentioned]
  | type htype =>
    have hfound := mentioned_fieldText htype []
    rw [List.append_nil] at hfound
    rw [hfound]
    simp [mentioned]

/-- The two ways to look at a descriptor agree. Whatever reading accepts, hunting for names finds
    exactly the classes of the types that are read, the parameters in order and then the result,
    each as often as it stands there; and these are the classes of the only way to derive the text
    from the grammar. -/
theorem classNames_agree :
    (∀ (s : String) (t : FieldType), parseField s = .ok t →
      classNames s = t.className?.toList.map String.ofList ∧
      ∀ name classes, FieldText s.toList name classes ↔
        name = t.sourceName ∧ classes = classNames s) ∧
    ∀ (s : String) (t : MethodType), parseMethod s = .ok t →
      classNames s = t.classNames.map String.ofList ∧
      ∀ names name classes, MethodText s.toList names name classes ↔
        names = t.parameters.map FieldType.sourceName ∧ name = t.resultName ∧
          classes = classNames s := by
  constructor
  · intro s t hparse
    have hclasses : classNames s = classesOf t :=
      classNames_of_fieldText (fieldText_iff_parseField.mpr ⟨t, hparse, rfl, rfl⟩)
    refine ⟨hclasses, fun name classes => ?_⟩
    rw [fieldText_iff_parseField, hclasses, hparse]
    simp
  · intro s t hparse
    have hclasses : classNames s = t.classNames.map String.ofList :=
      classNames_of_methodText (methodText_iff_parseMethod.mpr ⟨t, hparse, rfl, rfl, rfl⟩)
    refine ⟨hclasses, fun names name classes => ?_⟩
    rw [methodText_iff_parseMethod, hclasses, hparse]
    simp

/-- An array of arrays of a class whose name holds the marks of descriptors. -/
def sampleField : FieldType := ⟨2, .object "a/L(".toList⟩

def sampleMethod : MethodType where
  parameters := [⟨1, .object "a/L(".toList⟩, ⟨0, .base .int⟩, ⟨0, .object "L)[L".toList⟩,
    ⟨2, .base .double⟩]
  result := some ⟨0, .object "a/L(".toList⟩

theorem parseField_sampleField : parseField "[[La/L(;" = .ok sampleField :=
  parseField_eq_ok_iff.mpr ⟨by rfl, by simp, by simp⟩

theorem parseMethod_sampleMethod :
    parseMethod "([La/L(;ILL)[L;[[D)La/L(;" = .ok sampleMethod := by
  refine parseMethod_eq_ok_iff.mpr ⟨by rfl, ?_⟩
  simp [sampleMethod, MethodType.types, ElementType.WellFormed]

/-- Letters and brackets inside of names lead neither of the two astray, and a class that is
    written twice is found twice. -/
theorem classNames_agree_sample :
    parseField "[[La/L(;" = .ok sampleField ∧
    classNames "[[La/L(;" = ["a/L("] ∧
    parseMethod "([La/L(;ILL)[L;[[D)La/L(;" = .ok sampleMethod ∧
    classNames "([La/L(;ILL)[L;[[D)La/L(;" = ["a/L(", "L)[L", "a/L("] :=
  ⟨parseField_sampleField, (classNames_agree.1 _ _ parseField_sampleField).1,
    parseMethod_sampleMethod, (classNames_agree.2 _ _ parseMethod_sampleMethod).1⟩

end ClassAudit.Descriptor
