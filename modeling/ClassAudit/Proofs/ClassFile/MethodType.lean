import ClassAudit.ClassFile.Descriptor
import ClassAudit.Proofs.ClassFile.Name

/-! # Types of methods and their texts

    A text is read as the types of a method exactly if it is their descriptor. The way a method is
    written in source code can be taken apart again: the result type ends at the first space, the
    name at the first parenthesis, and each parameter at a comma. So the source code of a method
    tells its types, as long as the names of classes hold no such marks and are no words for types.
-/

namespace ClassAudit

variable {e : ElementType} {cs rest : List Char} {t : FieldType} {descriptor : String}

/-! ### Descriptors as texts of types -/

def ElementType.text : ElementType → List Char
  | .base type => [type.letter]
  | .object name => 'L' :: name ++ [';']

theorem FieldType.text_eq (t : FieldType) :
    t.text = List.replicate t.dims '[' ++ t.element.text := by
  unfold FieldType.text
  cases t.element <;> rfl

def MethodType.resultText : Option FieldType → List Char
  | none => ['V']
  | some type => type.text

theorem MethodType.text_eq (t : MethodType) :
    t.text = '(' :: t.parameters.flatMap FieldType.text ++ ')' :: resultText t.result := by
  unfold MethodType.text
  cases t.result <;> rfl

/-- An element that is a class has a name. -/
def ElementType.Named : ElementType → Prop
  | .base _ => True
  | .object name => name ≠ []

/-- An element whose class, if it is one, has a name that ends where its descriptor says. -/
def ElementType.WellFormed : ElementType → Prop
  | .base _ => True
  | .object name => name ≠ [] ∧ ';' ∉ name

theorem ElementType.WellFormed.named (h : e.WellFormed) : e.Named := by
  cases e with
  | base type => trivial
  | object name => exact h.1

/-- The types of the parameters and of the result. -/
def MethodType.types (t : MethodType) : List FieldType :=
  t.parameters ++ t.result.toList

theorem BaseType.letter_of_ofLetter? {c : Char} {type : BaseType}
    (h : BaseType.ofLetter? c = some type) : type.letter = c := by
  unfold BaseType.ofLetter? at h
  split at h <;> simp at h <;> subst h <;> rfl

/-- A type of a value is not taken for another dimension, for the end of the parameters or for the
    sign of no result. -/
theorem ElementType.exists_start (e : ElementType) (rest : List Char) :
    ∃ c tail, e.text ++ rest = c :: tail ∧ c ∉ ['[', ')', 'V'] := by
  cases e with
  | base type => exact ⟨type.letter, rest, rfl, by cases type <;> decide⟩
  | object name => exact ⟨'L', _, rfl, by decide⟩

theorem FieldType.exists_start (t : FieldType) (rest : List Char) :
    ∃ c tail, t.text ++ rest = c :: tail ∧ c ∉ [')', 'V'] := by
  rw [t.text_eq, List.append_assoc]
  cases t.dims with
  | zero =>
    obtain ⟨c, tail, htext, hc⟩ := t.element.exists_start rest
    exact ⟨c, tail, htext, fun hmem => hc (List.mem_cons_of_mem _ hmem)⟩
  | succ dims => exact ⟨'[', _, rfl, by decide⟩

namespace Descriptor

theorem readElement_eq_ok_iff :
    readElement cs = .ok (e, rest) ↔ cs = e.text ++ rest ∧ e.WellFormed := by
  constructor
  · intro h
    unfold readElement at h
    split at h
    · nomatch h
    · next cs =>
      split at h
      · nomatch h
      · nomatch h
      · next name c rest' hdrop hne =>
        simp only [Except.ok.injEq, Prod.mk.injEq] at h
        obtain ⟨rfl, rfl⟩ := h
        obtain rfl := eq_of_dropWhile_ne hdrop
        obtain ⟨hcut, hfree⟩ := eq_append_cons_iff.mpr ⟨rfl, hdrop⟩
        exact ⟨by simpa [ElementType.text] using hcut, hne, hfree⟩
    · next c cs hne =>
      split at h
      · next type hletter =>
        simp only [Except.ok.injEq, Prod.mk.injEq] at h
        obtain ⟨rfl, rfl⟩ := h
        have hc := BaseType.letter_of_ofLetter? hletter
        exact ⟨by simp [ElementType.text, hc], trivial⟩
      · nomatch h
  · rintro ⟨rfl, hwf⟩
    cases e with
    | base type => cases type <;> rfl
    | object name =>
      obtain ⟨hname, hfree⟩ := hwf
      obtain ⟨c, name, rfl⟩ := List.exists_cons_of_ne_nil hname
      -- The first semicolon is the one behind the name.
      obtain ⟨htake, hdrop⟩ := eq_append_cons_iff.mp
        ⟨show c :: name ++ ';' :: rest = (c :: name) ++ ';' :: rest from rfl, hfree⟩
      have htext : (ElementType.object (c :: name)).text ++ rest =
          'L' :: (c :: name ++ ';' :: rest) := by simp [ElementType.text]
      rw [htext, readElement, htake, hdrop]

theorem readType_eq_ok_iff :
    readType cs = .ok (t, rest) ↔ cs = t.text ++ rest ∧ t.element.WellFormed := by
  constructor
  · intro h
    unfold readType at h
    cases helem : readElement (cs.dropWhile (· = '[')) with
    | error e => simp [helem, bind, Except.bind] at h
    | ok r =>
      obtain ⟨element, rest'⟩ := r
      simp only [helem, bind, Except.bind, pure, Except.pure, Except.ok.injEq, Prod.mk.injEq] at h
      obtain ⟨rfl, rfl⟩ := h
      obtain ⟨htext, hwf⟩ := readElement_eq_ok_iff.mp helem
      refine ⟨?_, hwf⟩
      -- In front of the element stand brackets and nothing else.
      have hbrackets : cs.takeWhile (· = '[') =
          List.replicate (cs.takeWhile (· = '[')).length '[' := by
        apply List.eq_replicate_of_mem
        intro c hc
        simpa using List.all_eq_true.mp List.all_takeWhile c hc
      rw [FieldType.text_eq, ← hbrackets, List.append_assoc, ← htext,
        List.takeWhile_append_dropWhile]
  · rintro ⟨rfl, hwf⟩
    have hread : readElement (t.element.text ++ rest) = .ok (t.element, rest) :=
      readElement_eq_ok_iff.mpr ⟨rfl, hwf⟩
    obtain ⟨c, tail, htext, hc⟩ := t.element.exists_start rest
    have hbrackets : ∀ d ∈ List.replicate t.dims '[', decide (d = '[') = true := by
      intro d hd
      rw [List.eq_of_mem_replicate hd]
      rfl
    have hstop : c ≠ '[' := by
      rintro rfl
      exact hc (by simp)
    -- The brackets end where the element starts.
    have hdrop : (t.text ++ rest).dropWhile (· = '[') = t.element.text ++ rest := by
      rw [t.text_eq, List.append_assoc, List.dropWhile_append_of_pos hbrackets, htext,
        List.dropWhile_cons_of_neg (by simpa using hstop)]
    have htake : (t.text ++ rest).takeWhile (· = '[') = List.replicate t.dims '[' := by
      rw [t.text_eq, List.append_assoc, List.takeWhile_append_of_pos hbrackets, htext,
        List.takeWhile_cons_of_neg (by simpa using hstop), List.append_nil]
    rw [readType, hdrop, hread, htake, List.length_replicate]
    rfl

theorem readParameters_of_readType (hcs : ∃ c tail, cs = c :: tail ∧ c ≠ ')')
    (hread : readType cs = .ok (t, rest)) :
    readParameters cs = (readParameters rest).map fun (types, rest) => (t :: types, rest) := by
  obtain ⟨c, tail, rfl, hc⟩ := hcs
  rw [readParameters]
  · split
    · next hread' => simp [hread] at hread'
    · next hread' =>
      rw [hread] at hread'
      obtain ⟨rfl, rfl⟩ := Prod.mk.inj (Except.ok.inj hread')
      rfl
  · simp
  · rintro rest' heq
    exact hc (List.cons.inj heq).1

theorem readParameters_eq_ok_iff {types : List FieldType} :
    readParameters cs = .ok (types, rest) ↔
      cs = types.flatMap FieldType.text ++ ')' :: rest ∧ ∀ t ∈ types, t.element.WellFormed := by
  constructor
  · intro h
    fun_induction readParameters cs generalizing types rest with
    | case1 => nomatch h
    | case2 rest' =>
      simp only [Except.ok.injEq, Prod.mk.injEq] at h
      obtain ⟨rfl, rfl⟩ := h
      simp
    | case3 cs _ _ e _ => nomatch h
    | case4 cs _ _ type rest' hread _ ih =>
      obtain ⟨htext, hwf⟩ := readType_eq_ok_iff.mp hread
      cases hmore : readParameters rest' with
      | error e => simp [hmore, Except.map] at h
      | ok r =>
        obtain ⟨types', rest''⟩ := r
        simp only [hmore, Except.map, Except.ok.injEq, Prod.mk.injEq] at h
        obtain ⟨rfl, rfl⟩ := h
        obtain ⟨hmoreText, hmoreWf⟩ := ih hmore
        refine ⟨?_, List.forall_mem_cons.mpr ⟨hwf, hmoreWf⟩⟩
        rw [htext, hmoreText, List.flatMap_cons, List.append_assoc]
  · rintro ⟨rfl, hwf⟩
    induction types with
    | nil => simp [readParameters]
    | cons t types ih =>
      obtain ⟨ht, htypes⟩ := List.forall_mem_cons.mp hwf
      obtain ⟨c, tail, htext, hc⟩ := t.exists_start (types.flatMap FieldType.text ++ ')' :: rest)
      rw [List.flatMap_cons, List.append_assoc]
      have hread := readType_eq_ok_iff.mpr ⟨htext.symm, ht⟩
      rw [htext, readParameters_of_readType ⟨c, tail, rfl, fun heq => hc (by simp [heq])⟩ hread,
        ih htypes]
      rfl

theorem readResult_eq_ok_iff {result : Option FieldType} :
    readResult cs = .ok (result, rest) ↔
      cs = MethodType.resultText result ++ rest ∧ ∀ t ∈ result, t.element.WellFormed := by
  constructor
  · intro h
    unfold readResult at h
    split at h
    · simp only [Except.ok.injEq, Prod.mk.injEq] at h
      obtain ⟨rfl, rfl⟩ := h
      simp [MethodType.resultText]
    · next hV =>
      cases hread : readType cs with
      | error e => simp [hread, Except.map] at h
      | ok r =>
        obtain ⟨type, rest'⟩ := r
        simp only [hread, Except.map, Except.ok.injEq, Prod.mk.injEq] at h
        obtain ⟨rfl, rfl⟩ := h
        obtain ⟨htext, hwf⟩ := readType_eq_ok_iff.mp hread
        exact ⟨htext, by simpa using hwf⟩
  · rintro ⟨rfl, hwf⟩
    cases result with
    | none => rfl
    | some type =>
      obtain ⟨c, tail, htext, hc⟩ := type.exists_start rest
      have hread := readType_eq_ok_iff.mpr ⟨htext.symm, hwf type rfl⟩
      rw [MethodType.resultText, htext, readResult, hread]
      · rfl
      · rintro rest' heq
        exact hc (by simp [(List.cons.inj heq).1])

/-- A text is read as a type exactly if it is the descriptor of that type. -/
theorem fieldType_eq_ok_iff : fieldType cs = .ok t ↔ cs = t.text ∧ t.element.WellFormed := by
  constructor
  · intro h
    unfold fieldType at h
    cases hread : readType cs with
    | error e => simp [hread, bind, Except.bind] at h
    | ok r =>
      obtain ⟨type, rest⟩ := r
      cases rest with
      | cons c rest =>
        simp [hread, bind, Except.bind, throw, throwThe, MonadExceptOf.throw] at h
      | nil =>
        simp only [hread, bind, Except.bind, pure, Except.pure, Except.ok.injEq] at h
        subst h
        simpa using readType_eq_ok_iff.mp hread
  · rintro ⟨rfl, hwf⟩
    have hread := readType_eq_ok_iff.mpr ⟨(List.append_nil t.text).symm, hwf⟩
    rw [fieldType, hread]
    rfl

/-- A text is read as the types of a method exactly if it is their descriptor. -/
theorem methodType_eq_ok_iff {t : MethodType} :
    methodType cs = .ok t ↔ cs = t.text ∧ ∀ type ∈ t.types, type.element.WellFormed := by
  have htypes : (∀ type ∈ t.types, type.element.WellFormed) ↔
      (∀ type ∈ t.parameters, type.element.WellFormed) ∧
        ∀ type ∈ t.result, type.element.WellFormed := by
    simp [MethodType.types, or_imp, forall_and]
  rw [htypes]
  constructor
  · intro h
    unfold methodType at h
    split at h
    · next cs =>
      cases hparameters : readParameters cs with
      | error e => simp [hparameters, bind, Except.bind] at h
      | ok r =>
        obtain ⟨parameters, rest⟩ := r
        simp only [hparameters, bind, Except.bind] at h
        obtain ⟨htext, hwf⟩ := readParameters_eq_ok_iff.mp hparameters
        cases hresult : readResult rest with
        | error e => simp [hresult] at h
        | ok r =>
          obtain ⟨result, rest'⟩ := r
          obtain ⟨hrest, hresultWf⟩ := readResult_eq_ok_iff.mp hresult
          cases rest' with
          | cons c rest' => simp [hresult, throw, throwThe, MonadExceptOf.throw] at h
          | nil =>
            simp only [hresult, pure, Except.pure, Except.ok.injEq] at h
            subst h
            refine ⟨?_, hwf, hresultWf⟩
            rw [htext, hrest, List.append_nil, MethodType.text_eq, List.cons_append]
    · nomatch h
  · rintro ⟨rfl, hwf, hresultWf⟩
    rw [MethodType.text_eq, List.cons_append, methodType,
      readParameters_eq_ok_iff.mpr ⟨rfl, hwf⟩]
    have hresult := readResult_eq_ok_iff.mpr ⟨(List.append_nil _).symm, hresultWf⟩
    simp only [bind, Except.bind, hresult]
    rfl

theorem mapError_eq_ok_iff {ε δ α : Type} {f : ε → δ} {x : Except ε α} {a : α} :
    x.mapError f = .ok a ↔ x = .ok a := by
  cases x with
  | error e => constructor <;> intro h <;> cases h
  | ok b => constructor <;> exact fun h => congrArg Except.ok (Except.ok.inj h)

theorem parseField_eq_ok_iff :
    parseField descriptor = .ok t ↔ descriptor.toList = t.text ∧ t.element.WellFormed := by
  rw [← fieldType_eq_ok_iff, parseField, mapError_eq_ok_iff]

theorem parseMethod_eq_ok_iff {t : MethodType} :
    parseMethod descriptor = .ok t ↔
      descriptor.toList = t.text ∧ ∀ type ∈ t.types, type.element.WellFormed := by
  rw [← methodType_eq_ok_iff, parseMethod, mapError_eq_ok_iff]

theorem parseMethod_eq_ok {t : MethodType} (h : parseMethod descriptor = .ok t) :
    descriptor = String.ofList t.text ∧ ∀ type ∈ t.types, type.element.Named := by
  obtain ⟨htext, hwf⟩ := parseMethod_eq_ok_iff.mp h
  exact ⟨by rw [← htext, String.ofList_toList], fun type hmem => (hwf type hmem).named⟩

end Descriptor

/-! ### Names of types in source code -/

def ElementType.sourceName : ElementType → String
  | .base type => type.word
  | .object name => ClassName.binary (String.ofList name)

/-- Some pairs of brackets. -/
def FieldType.brackets (dims : Nat) : List Char :=
  (List.replicate dims ['[', ']']).flatten

theorem FieldType.length_brackets (dims : Nat) : (brackets dims).length = 2 * dims := by
  simp [brackets, Nat.mul_comm]

theorem FieldType.toList_sourceName (t : FieldType) :
    t.sourceName.toList = t.element.sourceName.toList ++ brackets t.dims := by
  unfold FieldType.sourceName brackets ElementType.sourceName
  rw [String.toList_append, String.toList_join, List.flatMap_replicate]
  cases t.element <;> rfl

/-- The words that source code has for types that are no classes. -/
def typeWords : List String :=
  ["byte", "char", "double", "float", "int", "long", "short", "boolean", "void"]

/-- The marks that stand between the parts of a method in source code, and between the parts of a
    name. -/
def sourceMarks : List Char :=
  ['.', ',', '(', ')', '[', ']', ' ']

/-- A class name that stands for itself in source code: it holds no mark and is no word for another
    type. -/
def IsSourceName (name : List Char) : Prop :=
  (∀ c ∈ name, c ∉ sourceMarks) ∧ String.ofList name ∉ typeWords

instance (name : List Char) : Decidable (IsSourceName name) :=
  @instDecidableAnd _ _ (List.decidableBAll _ name) _

/-- An element whose class, if it is one, stands for itself in source code. -/
def ElementType.Plain : ElementType → Prop
  | .base _ => True
  | .object name => IsSourceName name

theorem BaseType.word_mem (type : BaseType) : type.word ∈ typeWords := by
  cases type <;> decide

theorem BaseType.word_ne_void (type : BaseType) : type.word ≠ "void" := by
  cases type <;> decide

theorem BaseType.word_inj {type type' : BaseType} (h : type.word = type'.word) : type = type' := by
  cases type <;> cases type' <;> simp_all [BaseType.word]

theorem not_mem_typeWord {word : String} (h : word ∈ typeWords) :
    ∀ c ∈ word.toList, c ∉ sourceMarks := by
  intro c hc hmark
  have hall : typeWords.all (·.toList.all (!sourceMarks.contains ·)) = true := by decide
  have hword := List.all_eq_true.mp (List.all_eq_true.mp hall word h) c hc
  simp [hmark] at hword

/-- The binary name of a class that stands for itself is no word for another type. -/
theorem IsSourceName.binary_not_mem {name : List Char} (h : IsSourceName name) :
    ClassName.binary (String.ofList name) ∉ typeWords := by
  intro hword
  have hdot : '.' ∉ (ClassName.binary (String.ofList name)).toList :=
    fun hmem => not_mem_typeWord hword '.' hmem (by decide)
  rw [← ClassName.eq_of_binary_eq rfl hdot] at hword
  exact h.2 hword

namespace ElementType

theorem not_mem_sourceName (h : e.Plain) {mark : Char} (hmark : mark ∈ sourceMarks)
    (hdot : mark ≠ '.') : mark ∉ e.sourceName.toList := by
  intro hmem
  cases e with
  | base type => exact not_mem_typeWord type.word_mem mark hmem hmark
  | object name =>
    rcases ClassName.mem_binary hmem with hname | heq
    · rw [String.toList_ofList] at hname
      exact h.1 mark hname hmark
    · exact hdot heq

theorem sourceName_ne_nil (h : e.Named) : e.sourceName.toList ≠ [] := by
  cases e with
  | base type => cases type <;> decide
  | object name => simpa [sourceName, ClassName.binary, Named] using h

theorem sourceName_ne_void (h : e.Plain) : e.sourceName ≠ "void" := by
  cases e with
  | base type => exact type.word_ne_void
  | object name =>
    intro heq
    have hvoid : ClassName.binary (String.ofList name) = "void" := heq
    exact h.binary_not_mem (hvoid ▸ by decide)

theorem sourceName_inj {e' : ElementType} (h : e.Plain) (h' : e'.Plain)
    (heq : e.sourceName = e'.sourceName) : e = e' := by
  cases e with
  | base type =>
    cases e' with
    | base type' => exact congrArg base (BaseType.word_inj heq)
    | object name' =>
      have hword : type.word = ClassName.binary (String.ofList name') := heq
      exact absurd (hword ▸ type.word_mem) h'.binary_not_mem
  | object name =>
    cases e' with
    | base type' =>
      have hword : ClassName.binary (String.ofList name) = type'.word := heq
      exact absurd (hword ▸ type'.word_mem) h.binary_not_mem
    | object name' =>
      have hdot : ∀ {cs : List Char}, IsSourceName cs → '.' ∉ (String.ofList cs).toList := by
        intro cs hcs hmem
        rw [String.toList_ofList] at hmem
        exact hcs.1 '.' hmem (by decide)
      exact congrArg object (String.ofList_injective (ClassName.binary_inj (hdot h) (hdot h') heq))

end ElementType

namespace FieldType

theorem not_mem_sourceName (h : t.element.Plain) {mark : Char}
    (hmark : mark ∈ [',', '(', ')', ' ']) : mark ∉ t.sourceName.toList := by
  rw [toList_sourceName, List.mem_append, not_or]
  have hmarks : ∀ c ∈ [',', '(', ')', ' '], c ∈ sourceMarks ∧ c ≠ '.' ∧ c ∉ ['[', ']'] := by
    simp [sourceMarks]
  obtain ⟨hsource, hdot, hbracket⟩ := hmarks mark hmark
  refine ⟨ElementType.not_mem_sourceName h hsource hdot, fun hmem => ?_⟩
  obtain ⟨pair, hpair, hmem⟩ := List.mem_flatten.mp hmem
  rw [List.eq_of_mem_replicate hpair] at hmem
  exact hbracket hmem

/-- A type can be told from its name in source code: the element ends at the first bracket. -/
theorem sourceName_inj {t' : FieldType} (h : t.element.Plain) (h' : t'.element.Plain)
    (heq : t.sourceName = t'.sourceName) : t = t' := by
  have htake : ∀ {t : FieldType}, t.element.Plain →
      t.sourceName.toList.takeWhile (· ≠ '[') = t.element.sourceName.toList := by
    intro t ht
    have hnot := @ElementType.not_mem_sourceName _ ht '[' (by decide) (by decide)
    have hall : ∀ c ∈ t.element.sourceName.toList, decide (c ≠ '[') = true := by
      intro c hc
      rw [decide_eq_true_eq]
      rintro rfl
      exact hnot hc
    rw [toList_sourceName, List.takeWhile_append_of_pos hall]
    cases t.dims <;> simp [brackets, List.replicate_succ]
  have helement : t.element.sourceName = t'.element.sourceName := by
    rw [← String.toList_inj, ← htake h, ← htake h', heq]
  have hdims : t.dims = t'.dims := by
    have hlength := congrArg (fun s : String => s.toList.length) heq
    simp only [toList_sourceName, List.length_append, helement, length_brackets] at hlength
    omega
  obtain ⟨dims, element⟩ := t
  obtain ⟨dims', element'⟩ := t'
  obtain rfl : dims = dims' := hdims
  obtain rfl : element = element' := ElementType.sourceName_inj h h' helement
  rfl

theorem sourceName_ne_nil (h : t.element.Named) : t.sourceName.toList ≠ [] := by
  rw [toList_sourceName]
  exact List.append_ne_nil_of_left_ne_nil (ElementType.sourceName_ne_nil h) _

end FieldType

/-! ### Methods in source code -/

namespace MethodType

def classNames (t : MethodType) : List (List Char) :=
  t.types.filterMap FieldType.className?

theorem plain_of_classNames {t : MethodType} (h : ∀ name ∈ t.classNames, IsSourceName name) :
    ∀ type ∈ t.types, type.element.Plain := by
  intro type hmem
  cases helem : type.element with
  | base _ => trivial
  | object name =>
    apply h
    rw [classNames, List.mem_filterMap]
    exact ⟨type, hmem, by simp [FieldType.className?, helem]⟩

theorem toList_sourceSignature (t : MethodType) (name : String) :
    (t.sourceSignature name).toList =
      t.resultName.toList ++ ' ' :: (name.toList ++ '(' ::
        ([','].intercalate (t.parameters.map fun type => type.sourceName.toList) ++ [')'])) := by
  unfold sourceSignature
  simp [String.toList_intercalate, Function.comp_def]

theorem not_mem_resultName {t : MethodType} (h : ∀ type ∈ t.types, type.element.Plain) :
    ' ' ∉ t.resultName.toList := by
  unfold resultName
  cases hresult : t.result with
  | none => decide
  | some type =>
    have hmem : type ∈ t.types := by simp [types, hresult]
    exact FieldType.not_mem_sourceName (h type hmem) (by decide)

theorem resultName_inj {t t' : MethodType} (h : ∀ type ∈ t.types, type.element.Plain)
    (h' : ∀ type ∈ t'.types, type.element.Plain) (heq : t.resultName = t'.resultName) :
    t.result = t'.result := by
  -- What is no array and is written as the word is no type of a value.
  have hvoid : ∀ {type : FieldType}, type.element.Plain → type.sourceName ≠ "void" := by
    intro type hplain heq
    have hchars := congrArg String.toList heq
    rw [FieldType.toList_sourceName] at hchars
    cases hdims : type.dims with
    | zero =>
      rw [hdims, FieldType.brackets, List.replicate_zero, List.flatten_nil, List.append_nil,
        String.toList_inj] at hchars
      exact ElementType.sourceName_ne_void hplain hchars
    | succ dims =>
      have hmem : '[' ∈ "void".toList := by
        rw [← hchars, hdims]
        simp [FieldType.brackets, List.replicate_succ]
      exact absurd hmem (by decide)
  unfold resultName at heq
  cases hresult : t.result with
  | none =>
    cases hresult' : t'.result with
    | none => rfl
    | some type' =>
      rw [hresult, hresult'] at heq
      exact absurd heq.symm (hvoid (h' type' (by simp [types, hresult'])))
  | some type =>
    cases hresult' : t'.result with
    | none =>
      rw [hresult, hresult'] at heq
      exact absurd heq (hvoid (h type (by simp [types, hresult])))
    | some type' =>
      rw [hresult, hresult'] at heq
      exact congrArg some (FieldType.sourceName_inj (h type (by simp [types, hresult]))
        (h' type' (by simp [types, hresult'])) heq)

/-- Parameters can be told from their names with commas between them. No name is empty, so that one
    parameter is not taken for none. -/
theorem parameters_inj {types types' : List FieldType}
    (h : ∀ type ∈ types, type.element.Plain ∧ type.element.Named)
    (h' : ∀ type ∈ types', type.element.Plain ∧ type.element.Named)
    (heq : [','].intercalate (types.map fun type => type.sourceName.toList) =
      [','].intercalate (types'.map fun type => type.sourceName.toList)) : types = types' := by
  have hcomma : ∀ {types : List FieldType},
      (∀ type ∈ types, type.element.Plain ∧ type.element.Named) →
      ∀ name ∈ types.map fun type => type.sourceName.toList, ',' ∉ name := by
    intro types hall name hname
    obtain ⟨type, hmem, rfl⟩ := List.mem_map.mp hname
    exact FieldType.not_mem_sourceName (hall type hmem).1 (by decide)
  have hnil : ∀ {types : List FieldType},
      (∀ type ∈ types, type.element.Plain ∧ type.element.Named) →
      [','].intercalate (types.map fun type => type.sourceName.toList) = [] → types = [] := by
    intro types hall hempty
    cases types with
    | nil => rfl
    | cons type types =>
      have hname := FieldType.sourceName_ne_nil (hall type List.mem_cons_self).2
      cases types with
      | nil => exact absurd (by simpa [List.intercalate] using hempty) hname
      | cons next types =>
        simp only [List.map_cons, List.intercalate_cons_cons, List.append_assoc,
          List.append_eq_nil_iff] at hempty
        exact absurd hempty.1 hname
  by_cases hempty : types = []
  · subst hempty
    exact (hnil h' heq.symm).symm
  by_cases hempty' : types' = []
  · subst hempty'
    exact hnil h heq
  have hnames : (types.map fun type => type.sourceName.toList) =
      types'.map fun type => type.sourceName.toList := by
    rw [← List.splitOn_intercalate ',' (hcomma h) (by simpa using hempty), heq,
      List.splitOn_intercalate ',' (hcomma h') (by simpa using hempty')]
  apply List.ext_getElem
  · simpa using congrArg List.length hnames
  · intro i hi hi'
    have hname : types[i].sourceName.toList = types'[i].sourceName.toList := by
      have hget := congrArg (fun names : List (List Char) => names[i]?) hnames
      simpa [hi, hi'] using hget
    exact FieldType.sourceName_inj (h _ (List.getElem_mem hi)).1 (h' _ (List.getElem_mem hi')).1
      (String.toList_inj.mp hname)

/-- The types and the name of a method can be told from its source code. -/
theorem sourceSignature_inj {t t' : MethodType} {name name' : String}
    (h : ∀ type ∈ t.types, type.element.Plain ∧ type.element.Named)
    (h' : ∀ type ∈ t'.types, type.element.Plain ∧ type.element.Named)
    (hname : '(' ∉ name.toList) (hname' : '(' ∉ name'.toList)
    (heq : t.sourceSignature name = t'.sourceSignature name') : t = t' ∧ name = name' := by
  have hchars := congrArg String.toList heq
  rw [toList_sourceSignature, toList_sourceSignature] at hchars
  have hplain := fun type hmem => (h type hmem).1
  have hplain' := fun type hmem => (h' type hmem).1
  -- Cut at the first space, at the first parenthesis behind it, and at the end.
  obtain ⟨hresult, hrest⟩ := (append_cons_inj (not_mem_resultName hplain)
    (not_mem_resultName hplain')).mp hchars
  obtain ⟨hnames, hrest⟩ := (append_cons_inj hname hname').mp hrest
  have hparameters := parameters_inj
    (fun type hmem => h type (List.mem_append_left _ hmem))
    (fun type hmem => h' type (List.mem_append_left _ hmem)) (List.append_cancel_right hrest)
  have hresults := resultName_inj hplain hplain' (String.toList_inj.mp hresult)
  obtain ⟨parameters, result⟩ := t
  obtain ⟨parameters', result'⟩ := t'
  obtain rfl : parameters = parameters' := hparameters
  obtain rfl : result = result' := hresults
  exact ⟨rfl, String.toList_inj.mp hnames⟩

end MethodType

end ClassAudit
