import ClassAudit.Proofs.ClassFile.Signature.Soundness

/-! # Accepted and refused signatures

    The readers get fuel, and one without fuel gives up. `Steady` says that a reader does not
    notice: with at least twice as much as the text is long, and a little more, the answer is the
    same whatever the amount. So no reading ends for want of fuel, and an error is always about the
    text. With what readers take from a text, this settles which signatures are accepted: only those
    that have a derivation, and then the references are the classes that it names.
-/

namespace ClassAudit.Signature

namespace Parser

variable {α β : Type} {text rest : List Char} {fuel : Nat}

/-! ### Enough fuel -/

/-- Two readers give the same answer to a text. -/
def Agree (p q : Parser α) (text : List Char) : Prop :=
  p text = q text

namespace Agree

theorem refl (p : Parser α) : Agree p p text := rfl

/-- The second steps need to agree only on what the first step leaves. -/
theorem bind {p q : Parser α} {f g : α → Parser β} (hp : Agree p q text)
    (hf : ∀ a rest, Reads q text a rest → Agree (f a) (g a) rest) :
    Agree (p >>= f) (q >>= g) text := by
  show (p text >>= fun x => f x.1 x.2) = (q text >>= fun x => g x.1 x.2)
  rw [show p text = q text from hp]
  cases hq : q text with
  | error e => rfl
  | ok r => exact hf r.1 r.2 hq

theorem map {p q : Parser α} (f : α → β) (hp : Agree p q text) :
    Agree (do return f (← p)) (do return f (← q)) text :=
  hp.bind fun _ _ _ => refl _

theorem peek {f g : Char → Parser β}
    (h : Agree (f (text.headD '\x00')) (g (text.headD '\x00')) text) :
    Agree (Parser.peek >>= f) (Parser.peek >>= g) text := h

theorem advance {f g : Unit → Parser β} (h : Agree (f ()) (g ()) (text.drop 1)) :
    Agree (Parser.advance >>= f) (Parser.advance >>= g) text := h

theorem atEnd {f g : Bool → Parser β} (h : Agree (f text.isEmpty) (g text.isEmpty) text) :
    Agree (Parser.atEnd >>= f) (Parser.atEnd >>= g) text := h

end Agree

/-- With this fuel, more fuel makes no difference on texts that are short enough. A reader that
    hands its text on unread needs more in reserve than the one that it hands it to: a list of type
    arguments more than a reference type, and that more than a class type. -/
def Steady (p : Nat → Parser α) (reserve fuel : Nat) : Prop :=
  ∀ text : List Char, 2 * text.length + reserve ≤ fuel → Agree (p (fuel + 1)) (p fuel) text

/-- What a reader leaves is not longer than what it got. -/
theorem Sound.length_le {p : Parser α} {textOf : α → List Char} {derivation : α → Prop} {a : α}
    (h : Sound p textOf derivation) (hread : Reads p text a rest) : rest.length ≤ text.length := by
  obtain ⟨rfl, -⟩ := h hread
  rw [List.length_append]
  exact Nat.le_add_left _ _

theorem Sound.length_lt {p : Parser α} {textOf : α → List Char} {derivation : α → Prop} {a : α}
    (h : Sound p textOf derivation) (hread : Reads p text a rest) (hpos : 0 < (textOf a).length) :
    rest.length < text.length := by
  obtain ⟨rfl, -⟩ := h hread
  rw [List.length_append]
  omega

theorem Steady.cons {p p' : Parser α} {q : Nat → Parser (List α)} {reserve : Nat}
    (hp : Agree p p' text) (hshorter : ∀ a rest, Reads p' text a rest → rest.length < text.length)
    (hq : Steady q reserve fuel) (hfuel : 2 * text.length + reserve ≤ fuel + 2) :
    Agree (do let a ← p; return a :: (← q (fuel + 1))) (do let a ← p'; return a :: (← q fuel))
      text := by
  apply hp.bind
  intro a rest hread
  have hlt := hshorter a rest hread
  exact (hq rest (by omega)).map _

theorem length_of_headD {c : Char} (h : text.headD '\x00' = c) (hc : c ≠ '\x00') :
    text.length = (text.drop 1).length + 1 := by
  have htext := congrArg List.length (eq_cons_of_headD h hc)
  rwa [List.length_cons] at htext

theorem Steady.reference_succ (hclass : Steady classType 0 fuel)
    (hreference : Steady reference 1 fuel) : Steady reference 1 (fuel + 1) := by
  intro text hfuel
  apply Agree.peek
  split
  · -- A class type gets the whole text, and needs one less for it.
    exact (hclass text (by omega)).map _
  · exact .refl _
  · next hhead =>
    have hlength := length_of_headD hhead (by decide)
    apply Agree.advance
    apply Agree.peek
    split
    · exact .refl _
    · exact (hreference _ (by omega)).map _
  · exact .refl _

theorem Steady.classType_succ (hargs : Steady arguments 1 fuel)
    (hinner : Steady innerTypes 0 fuel) : Steady classType 0 (fuel + 1) := by
  intro text hfuel
  apply Agree.bind (.refl _)
  intro _ mid hexpect
  obtain rfl := hexpect.of_expect (by decide)
  apply Agree.bind (.refl _)
  intro name mid₁ hname
  -- The `L` and the name are gone, so that even a list of arguments has enough.
  obtain ⟨rfl, hne, -⟩ := hname.of_identifier
  have hpos := List.length_pos_iff.mpr hne
  rw [List.length_cons, List.length_append] at hfuel
  apply Agree.bind (hargs mid₁ (by omega))
  intro args mid₂ hread
  have hle := (typesSound fuel).arguments.length_le hread
  exact (hinner mid₂ (by omega)).bind fun _ _ _ => .refl _

theorem Steady.innerTypes_succ (hargs : Steady arguments 1 fuel)
    (hinner : Steady innerTypes 0 fuel) : Steady innerTypes 0 (fuel + 1) := by
  intro text hfuel
  apply Agree.peek
  split
  · next hhead =>
    have hlength := length_of_headD hhead (by decide)
    apply Agree.advance
    apply Agree.bind (.refl _)
    intro name mid₁ hname
    obtain ⟨hrest, hne, -⟩ := hname.of_identifier
    rw [hrest, List.length_append] at hlength
    apply Agree.bind (hargs mid₁ (by omega))
    intro args mid₂ hread
    have hle := (typesSound fuel).arguments.length_le hread
    exact (hinner mid₂ (by omega)).map _
  · exact .refl _

theorem Steady.arguments_succ (hitems : Steady argumentList 2 fuel) :
    Steady arguments 1 (fuel + 1) := by
  intro text hfuel
  apply Agree.peek
  split
  · next hhead =>
    have hlength := length_of_headD hhead (by decide)
    apply Agree.advance
    exact (hitems _ (by omega)).map _
  · exact .refl _

/-- A type argument and the rest of the list: the argument is not empty, so that the list has less
    text left. -/
theorem Steady.argument (hreference : Steady reference 1 fuel)
    (hitems : Steady argumentList 2 fuel) (variance : Variance)
    (hfuel : 2 * text.length + 1 ≤ fuel) :
    Agree
      (do
        let type ← reference (fuel + 1)
        return ArgList.cons variance type (← argumentList (fuel + 1)))
      (do
        let type ← reference fuel
        return ArgList.cons variance type (← argumentList fuel)) text := by
  apply Agree.bind (hreference text hfuel)
  intro type mid hread
  have hlt := (typesSound fuel).reference.length_lt hread type.length_text_pos
  exact (hitems mid (by omega)).map _

theorem Steady.argumentList_succ (hreference : Steady reference 1 fuel)
    (hitems : Steady argumentList 2 fuel) : Steady argumentList 2 (fuel + 1) := by
  intro text hfuel
  apply Agree.peek
  split
  · exact .refl _
  · exact .refl _
  · next hhead =>
    have hlength := length_of_headD hhead (by decide)
    apply Agree.advance
    exact (hitems _ (by omega)).map _
  · next hhead =>
    have hlength := length_of_headD hhead (by decide)
    exact .advance (hreference.argument hitems _ (by omega))
  · next hhead =>
    have hlength := length_of_headD hhead (by decide)
    exact .advance (hreference.argument hitems _ (by omega))
  · exact hreference.argument hitems _ (by omega)

/-- With some fuel, the readers of types do not miss more of it. -/
structure TypesSteady (fuel : Nat) : Prop where
  reference : Steady reference 1 fuel
  classType : Steady classType 0 fuel
  arguments : Steady arguments 1 fuel
  argumentList : Steady argumentList 2 fuel
  innerTypes : Steady innerTypes 0 fuel

theorem typesSteady (fuel : Nat) : TypesSteady fuel := by
  induction fuel with
  | zero =>
    -- Only the empty text is short enough, and only for readers without a reserve.
    have hempty : ∀ text : List Char, 2 * text.length + 0 ≤ 0 → text = [] := by
      intro text hfuel
      exact List.length_eq_zero_iff.mp (by omega)
    constructor
    · exact fun text hfuel => by omega
    · intro text hfuel
      rw [hempty text hfuel]
      rfl
    · exact fun text hfuel => by omega
    · exact fun text hfuel => by omega
    · intro text hfuel
      rw [hempty text hfuel]
      rfl
  | succ fuel ih =>
    constructor
    · exact .reference_succ ih.classType ih.reference
    · exact .classType_succ ih.arguments ih.innerTypes
    · exact .arguments_succ ih.argumentList
    · exact .argumentList_succ ih.reference ih.argumentList
    · exact .innerTypes_succ ih.arguments ih.innerTypes

theorem steady_javaType (fuel : Nat) : Steady javaType 1 fuel := by
  intro text hfuel
  apply Agree.peek
  split
  · exact .refl _
  · exact ((typesSteady fuel).reference text hfuel).map _

theorem steady_interfaceBounds (fuel : Nat) : Steady interfaceBounds 0 fuel := by
  induction fuel with
  | zero =>
    intro text hfuel
    obtain rfl : text = [] := List.length_eq_zero_iff.mp (by omega)
    rfl
  | succ fuel ih =>
    intro text hfuel
    apply Agree.peek
    split
    · next hhead =>
      have hlength := length_of_headD hhead (by decide)
      apply Agree.advance
      apply Steady.cons ((typesSteady fuel).reference _ (by omega)) _ ih (by omega)
      intro bound mid hread
      exact (typesSound fuel).reference.length_lt hread bound.length_text_pos
    · exact .refl _

theorem steady_classBound (fuel : Nat) : Steady classBound 1 fuel := by
  intro text hfuel
  apply Agree.peek
  split
  · exact ((typesSteady fuel).reference text hfuel).map _
  · exact .refl _

theorem steady_typeParam (fuel : Nat) : Steady typeParam 0 fuel := by
  intro text hfuel
  apply Agree.bind (.refl _)
  intro name mid hname
  obtain ⟨rfl, hne, -, c, -, after, rfl⟩ := hname.of_identifier
  rw [List.length_append, List.length_cons] at hfuel
  apply Agree.advance
  apply Agree.bind (steady_classBound fuel after (by omega))
  intro bound mid₁ hread
  have hle : mid₁.length ≤ after.length := (sound_classBound fuel).length_le hread
  exact (steady_interfaceBounds fuel mid₁ (by omega)).bind fun _ _ _ => .refl _

theorem steady_typeParamList (fuel : Nat) : Steady typeParamList 1 fuel := by
  induction fuel with
  | zero => exact fun text hfuel => by omega
  | succ fuel ih =>
    intro text hfuel
    apply Agree.peek
    split
    · exact .refl _
    · next hopen =>
      apply Steady.cons (steady_typeParam fuel text (by omega)) _ ih (by omega)
      intro param mid hread
      obtain ⟨rfl, -⟩ := hread.of_typeParam hopen
      simp only [TypeParam.text_eq, TypeParam.frontText, List.length_append, List.length_cons]
      omega

theorem steady_typeParams (fuel : Nat) : Steady typeParams 0 fuel := by
  intro text hfuel
  apply Agree.peek
  split
  · next hhead =>
    have hlength := length_of_headD hhead (by decide)
    exact .advance ((steady_typeParamList fuel _ (by omega)).map _)
  · exact .refl _

theorem steady_classTypes (fuel : Nat) : Steady classTypes 1 fuel := by
  induction fuel with
  | zero => exact fun text hfuel => by omega
  | succ fuel ih =>
    intro text hfuel
    apply Agree.atEnd
    split
    · exact .refl _
    · apply Steady.cons ((typesSteady fuel).classType text (by omega)) _ ih (by omega)
      intro type mid hread
      exact (typesSound fuel).classType.length_lt hread type.length_text_pos

theorem steady_ofClass (fuel : Nat) : Steady ofClass 1 fuel := by
  intro text hfuel
  apply Agree.bind (steady_typeParams fuel text (by omega))
  intro params mid hread
  have hle := (sound_typeParams fuel).length_le hread
  apply Agree.bind ((typesSteady fuel).classType mid (by omega))
  intro superclass mid₁ hread₁
  have hle₁ := (typesSound fuel).classType.length_le hread₁
  exact (steady_classTypes fuel mid₁ (by omega)).map _

theorem steady_parameterTypes (fuel : Nat) : Steady parameterTypes 2 fuel := by
  induction fuel with
  | zero => exact fun text hfuel => by omega
  | succ fuel ih =>
    intro text hfuel
    apply Agree.peek
    split
    · exact .refl _
    · apply Agree.atEnd
      split
      · exact .refl _
      · apply Steady.cons (steady_javaType fuel text (by omega)) _ ih (by omega)
        intro type mid hread
        exact (sound_javaType fuel).length_lt hread type.length_text_pos

theorem steady_resultType (fuel : Nat) : Steady resultType 1 fuel := by
  intro text hfuel
  apply Agree.peek
  split
  · exact .refl _
  · exact (steady_javaType fuel text hfuel).map _

theorem steady_thrownType (fuel : Nat) : Steady thrownType 0 fuel := by
  intro text hfuel
  apply Agree.peek
  split
  · exact .refl _
  · exact ((typesSteady fuel).classType text hfuel).map _

theorem steady_thrownTypes (fuel : Nat) : Steady thrownTypes 0 fuel := by
  induction fuel with
  | zero =>
    intro text hfuel
    obtain rfl : text = [] := List.length_eq_zero_iff.mp (by omega)
    rfl
  | succ fuel ih =>
    intro text hfuel
    apply Agree.peek
    split
    · next hhead =>
      have hlength := length_of_headD hhead (by decide)
      apply Agree.advance
      apply Agree.bind (steady_thrownType fuel _ (by omega))
      intro thrown mid hread
      -- The mark is part of the exception, and was passed over before.
      have hrest := congrArg List.length hread.of_thrownType.1
      have hpos := thrown.length_text_pos
      rw [List.length_cons, List.length_append] at hrest
      exact (ih mid (by omega)).map _
    · exact .refl _

theorem steady_ofMethod (fuel : Nat) : Steady ofMethod 1 fuel := by
  intro text hfuel
  apply Agree.bind (steady_typeParams fuel text (by omega))
  intro params mid hread
  have hle := (sound_typeParams fuel).length_le hread
  apply Agree.bind (.refl _)
  intro _ mid₁ hexpect
  -- The parenthesis makes up for the reserve that the parameters need.
  obtain rfl := hexpect.of_expect (by decide)
  rw [List.length_cons] at hle
  apply Agree.bind (steady_parameterTypes fuel mid₁ (by omega))
  intro types mid₂ hread₂
  have hle₂ := (sound_parameterTypes fuel).length_le hread₂
  apply Agree.bind (steady_resultType fuel mid₂ (by omega))
  intro result mid₃ hread₃
  have hle₃ := (sound_resultType fuel).length_le hread₃
  exact (steady_thrownTypes fuel mid₃ (by omega)).bind fun _ _ _ => .refl _

theorem steady_ofField (fuel : Nat) : Steady ofField 1 fuel := by
  intro text hfuel
  exact (steady_javaType fuel text hfuel).bind fun _ _ _ => .refl _

/-- From the fuel for a text on, the answer is the same with any amount. -/
theorem eq_of_steady {p : Nat → Parser α} (h : ∀ fuel, Steady p 1 fuel)
    (hfuel : fuelFor text ≤ fuel) : p fuel text = p (fuelFor text) text := by
  obtain ⟨more, rfl⟩ := Nat.exists_eq_add_of_le hfuel
  clear hfuel
  induction more with
  | zero => rfl
  | succ more ih =>
    have hstep : p (fuelFor text + more + 1) text = p (fuelFor text + more) text := by
      apply h
      unfold fuelFor
      omega
    exact hstep.trans ih

end Parser

/-! ### Acceptance -/

open Signature.Parser

/-- What holds of a parser for one kind of signatures. -/
structure SoundParser {α : Type} (parse : String → Except SignatureError α)
    (reader : Nat → Parser α) (textOf : α → List Char) (derivation : α → Prop)
    (names : α → Naming) (refs : α → List Ref) : Prop where
  /-- The whole of an accepted text has a derivation, and the references that are found are the
      classes that it names, in the order of the text and each in its position. -/
  accepted : ∀ (s : String) (found : List Ref), (parse s).map refs = .ok found →
    ∃ t, derivation t ∧ s.toList = textOf t ∧ Listed s.toList (names t) found
  /-- A text without a derivation is an error. -/
  refused : ∀ s : String, (¬ ∃ t, derivation t ∧ s.toList = textOf t) → ∃ e, parse s = .error e
  /-- The answer does not depend on the fuel. -/
  ended : ∀ (s : String) (fuel : Nat), fuelFor s.toList ≤ fuel →
    reader fuel s.toList = reader (fuelFor s.toList) s.toList

/-- A parser is sound if its reader takes the whole of a text, and only as the text of a
    derivation. -/
theorem soundParser_of_reads {α : Type} {parse : String → Except SignatureError α}
    {reader : Nat → Parser α} {textOf : α → List Char} {derivation : α → Prop}
    {names : α → Naming} {refs : α → List Ref}
    (hparse : ∀ s, parse s = (run reader s.toList).mapError (⟨·, s⟩))
    (hreads : ∀ {text t rest}, Reads (reader (fuelFor text)) text t rest →
      text = textOf t ∧ derivation t)
    (hlisted : ∀ t, Listed (textOf t) (names t) (refs t))
    (hsteady : ∀ fuel, Steady reader 1 fuel) :
    SoundParser parse reader textOf derivation names refs := by
  have hok : ∀ {s : String} {t : α}, parse s = .ok t → s.toList = textOf t ∧ derivation t := by
    intro s t h
    rw [hparse, run] at h
    cases hread : reader (fuelFor s.toList) s.toList with
    | error e =>
      rw [hread] at h
      cases h
    | ok r =>
      rw [hread] at h
      obtain rfl : r.1 = t := Except.ok.inj h
      exact hreads hread
  constructor
  · intro s found h
    cases hresult : parse s with
    | error e =>
      rw [hresult] at h
      cases h
    | ok t =>
      rw [hresult] at h
      obtain rfl : refs t = found := Except.ok.inj h
      obtain ⟨htext, hderivation⟩ := hok hresult
      exact ⟨t, hderivation, htext, htext ▸ hlisted t⟩
  · intro s hnone
    cases hresult : parse s with
    | error e => exact ⟨e, rfl⟩
    | ok t =>
      obtain ⟨htext, hderivation⟩ := hok hresult
      exact absurd ⟨t, hderivation, htext⟩ hnone
  · exact fun s fuel hfuel => eq_of_steady hsteady hfuel

/-- The parsers of signatures accept nothing outside their grammar and lose no reference. -/
theorem parse_sound :
    SoundParser parseClass ofClass OfClass.text OfClass.Derivation OfClass.Names OfClass.refs ∧
    SoundParser parseMethod ofMethod OfMethod.text OfMethod.Derivation OfMethod.Names
      OfMethod.refs ∧
    SoundParser parseField ofField JavaType.text JavaType.Derivation (JavaType.Names .field)
      (JavaType.refs .field) := by
  refine ⟨?_, ?_, ?_⟩
  · apply soundParser_of_reads (fun _ => rfl) _ OfClass.listed steady_ofClass
    intro text t rest h
    exact h.of_ofClass (by unfold fuelFor; omega)
  · exact soundParser_of_reads (fun _ => rfl) Reads.of_ofMethod OfMethod.listed steady_ofMethod
  · exact soundParser_of_reads (fun _ => rfl) Reads.of_ofField (JavaType.listed .field)
      steady_ofField

/-- Two type parameters without a bound, the second named by a NUL; a NUL in a class name, and an
    empty list of type arguments. -/
theorem parse_sound_sample :
    (parseClass "<T:\x00:>La/\x00b<>.c<*-[I>;LI;").map OfClass.refs =
      .ok [⟨.superclass, "a/\x00b"⟩, ⟨.superclass, "a/\x00b$c"⟩, ⟨.interface, "I"⟩] ∧
    ∃ t : OfClass, t.Derivation ∧ "<T:\x00:>La/\x00b<>.c<*-[I>;LI;".toList = t.text ∧
      Listed "<T:\x00:>La/\x00b<>.c<*-[I>;LI;".toList t.Names
        [⟨.superclass, "a/\x00b"⟩, ⟨.superclass, "a/\x00b$c"⟩, ⟨.interface, "I"⟩] :=
  ⟨by rfl, parse_sound.1.accepted _ _ (by rfl)⟩

end ClassAudit.Signature
