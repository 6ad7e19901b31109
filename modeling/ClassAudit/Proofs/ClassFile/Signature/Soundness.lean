import ClassAudit.Proofs.ClassFile.MethodType
import ClassAudit.Proofs.ClassFile.Signature.RoundTrip

/-! # What signature readers accept

    A tree is a derivation of its text if its names could be told from what follows them: a segment
    of a class name ends at a bracket, a dot or a semicolon, a type variable at a semicolon, and a
    type parameter at a colon. Any other character may stand in a name, and lists may be empty.
    Whatever a reader takes from the front of a text is the text of such a tree; so a text without a
    derivation is refused. At the end of the text the next character is taken to be NUL, which no
    reader goes on with, so that it stops there as at any wrong character.
-/

namespace ClassAudit.Signature

variable {fuel : Nat}

/-! ### Derivations -/

/-- A segment of a class name. -/
def IsSegment (name : List Char) : Prop :=
  name ≠ [] ∧ ∀ c ∈ name, c ∉ ['<', '.', ';']

/-- The name of a type variable. -/
def IsVariableName (name : List Char) : Prop :=
  name ≠ [] ∧ ';' ∉ name

/-- The name of a type parameter. One that started with a closing bracket would end the list. -/
def IsParamName (name : List Char) : Prop :=
  name ≠ [] ∧ ':' ∉ name ∧ name.head? ≠ some '>'

mutual

def RefType.Derivation : RefType → Prop
  | .object type => type.Derivation
  | .typeVar name => IsVariableName name
  | .baseArray _ => True
  | .array element => element.Derivation

def ClassType.Derivation : ClassType → Prop
  | .mk name args inner => IsSegment name ∧ args.Derivation ∧ inner.Derivation

def Args.Derivation : Args → Prop
  | .absent => True
  | .given items => items.Derivation

def ArgList.Derivation : ArgList → Prop
  | .nil => True
  | .any rest => rest.Derivation
  | .cons _ type rest => type.Derivation ∧ rest.Derivation

def Inner.Derivation : Inner → Prop
  | .nil => True
  | .cons name args rest => IsSegment name ∧ args.Derivation ∧ rest.Derivation

end

def JavaType.Derivation : JavaType → Prop
  | .base _ => True
  | .ref type => type.Derivation

structure TypeParam.Derivation (param : TypeParam) : Prop where
  name : IsParamName param.name
  classBound : ∀ bound ∈ param.classBound, bound.Derivation
  interfaceBounds : ∀ bound ∈ param.interfaceBounds, bound.Derivation

structure OfClass.Derivation (s : OfClass) : Prop where
  typeParams : ∀ params ∈ s.typeParams, ∀ param ∈ params, param.Derivation
  superclass : s.superclass.Derivation
  interfaces : ∀ type ∈ s.interfaces, type.Derivation

def Thrown.Derivation : Thrown → Prop
  | .typeVar name => IsVariableName name
  | .object type => type.Derivation

structure OfMethod.Derivation (s : OfMethod) : Prop where
  typeParams : ∀ params ∈ s.typeParams, ∀ param ∈ params, param.Derivation
  parameters : ∀ type ∈ s.parameters, type.Derivation
  result : ∀ type ∈ s.result, type.Derivation
  throws : ∀ thrown ∈ s.throws, thrown.Derivation

/-! ### Readers taken apart -/

namespace Parser

variable {α β : Type} {text rest : List Char}
variable {p : Parser α} {b : β}

/-- The next character is known, and so the text is not at its end. -/
theorem eq_cons_of_headD {c : Char} (h : text.headD '\x00' = c) (hc : c ≠ '\x00') :
    text = c :: text.drop 1 := by
  cases text with
  | nil => exact absurd h.symm hc
  | cons d text =>
    obtain rfl : d = c := h
    rfl

theorem reads_bind_iff {f : α → Parser β} :
    Reads (p >>= f) text b rest ↔ ∃ a mid, Reads p text a mid ∧ Reads (f a) mid b rest := by
  constructor
  · intro h
    cases hp : p text with
    | error e =>
      have hbind : (p text >>= fun x => f x.1 x.2) = .ok (b, rest) := h
      rw [hp] at hbind
      cases hbind
    | ok r =>
      obtain ⟨a, mid⟩ := r
      have hbind : (p text >>= fun x => f x.1 x.2) = .ok (b, rest) := h
      rw [hp] at hbind
      exact ⟨a, mid, hp, hbind⟩
  · rintro ⟨a, mid, hp, hf⟩
    exact hp.bind hf

theorem reads_pure_iff {a b : α} : Reads (pure a) text b rest ↔ a = b ∧ text = rest := by
  show Except.ok (a, text) = Except.ok (b, rest) ↔ _
  simp

theorem Reads.of_map {f : α → β} (h : Reads (do return f (← p)) text b rest) :
    ∃ a, f a = b ∧ Reads p text a rest := by
  obtain ⟨a, mid, hp, hpure⟩ := reads_bind_iff.mp h
  obtain ⟨hb, rfl⟩ := reads_pure_iff.mp hpure
  exact ⟨a, hb, hp⟩

theorem Reads.of_cons {q : Parser (List α)} {as : List α}
    (h : Reads (do let a ← p; return a :: (← q)) text as rest) :
    ∃ a more mid, a :: more = as ∧ Reads p text a mid ∧ Reads q mid more rest := by
  obtain ⟨a, mid, hp, hmore⟩ := reads_bind_iff.mp h
  obtain ⟨more, has, hq⟩ := hmore.of_map
  exact ⟨a, more, mid, has, hp, hq⟩

theorem not_reads_fail {cause : Cause} {a : α} : ¬ Reads (fail cause) text a rest :=
  fun h => nomatch h

theorem reads_peek_iff {f : Char → Parser β} :
    Reads (peek >>= f) text b rest ↔ Reads (f (text.headD '\x00')) text b rest := .rfl

theorem reads_atEnd_iff {f : Bool → Parser β} :
    Reads (atEnd >>= f) text b rest ↔ Reads (f text.isEmpty) text b rest := .rfl

theorem reads_advance_iff {f : Unit → Parser β} :
    Reads (advance >>= f) text b rest ↔ Reads (f ()) (text.drop 1) b rest := .rfl

theorem Reads.of_expect {c : Char} {u : Unit} (h : Reads (Parser.expect c) text u rest)
    (hc : c ≠ '\x00') : text = c :: rest := by
  unfold Parser.expect at h
  rw [reads_peek_iff] at h
  split at h
  · obtain ⟨_, _, hfail, _⟩ := reads_bind_iff.mp h
    exact absurd hfail not_reads_fail
  · next hhead =>
    have htext := eq_cons_of_headD (Decidable.of_not_not hhead) hc
    obtain ⟨-, hrest⟩ := Prod.mk.inj (Except.ok.inj h)
    rw [htext, ← hrest]

/-- A name that is read is not empty and holds no mark; the first mark comes behind it. -/
theorem Reads.of_identifier {stops name : List Char}
    (h : Reads (Parser.identifier stops) text name rest) :
    text = name ++ rest ∧ name ≠ [] ∧ (∀ c ∈ name, c ∉ stops) ∧ StartsIn stops rest := by
  unfold Reads Parser.identifier at h
  split at h
  · cases h
  · cases h
  · next hname hrest =>
    obtain ⟨rfl, rfl⟩ := Prod.mk.inj (Except.ok.inj h)
    refine ⟨List.takeWhile_append_dropWhile.symm, hname, ?_, ?_⟩
    · intro c hc
      simpa using List.all_eq_true.mp List.all_takeWhile c hc
    · obtain ⟨c, tail, htail⟩ := List.exists_cons_of_ne_nil hrest
      have hhead := List.head?_dropWhile_not (· ∉ stops) text
      rw [htail] at hhead
      exact ⟨c, by simpa using hhead, tail, htail⟩

theorem eq_cons_of_ofLetter? {type : BaseType}
    (h : BaseType.ofLetter? (text.headD '\x00') = some type) :
    text = type.letter :: text.drop 1 := by
  apply eq_cons_of_headD
  · exact (BaseType.letter_of_ofLetter? h).symm
  · cases type <;> decide

/-! ### Types -/

/-- What a reader takes from the front of a text is the text of a derivation. -/
def Sound (p : Parser α) (textOf : α → List Char) (derivation : α → Prop) : Prop :=
  ∀ ⦃text : List Char⦄ ⦃a : α⦄ ⦃rest : List Char⦄, Reads p text a rest →
    text = textOf a ++ rest ∧ derivation a

theorem sound_typeVariable :
    Sound typeVariable (fun name => 'T' :: (name ++ [';'])) IsVariableName := by
  intro text name rest h
  unfold typeVariable at h
  obtain ⟨_, mid, hexpect, hmid⟩ := reads_bind_iff.mp h
  obtain rfl := hexpect.of_expect (by decide)
  obtain ⟨name', mid', hname, hend⟩ := reads_bind_iff.mp hmid
  rw [reads_advance_iff] at hend
  obtain ⟨rfl, rfl⟩ := reads_pure_iff.mp hend
  obtain ⟨rfl, hne, hfree, c, hc, tail, rfl⟩ := hname.of_identifier
  obtain rfl := List.mem_singleton.mp hc
  exact ⟨by simp, hne, fun hmem => hfree ';' hmem (by simp)⟩

theorem Sound.reference_succ (hclass : Sound (classType fuel) ClassType.text ClassType.Derivation)
    (hreference : Sound (reference fuel) RefType.text RefType.Derivation) :
    Sound (reference (fuel + 1)) RefType.text RefType.Derivation := by
  intro text type rest h
  rw [reference, reads_peek_iff] at h
  split at h
  · obtain ⟨type', rfl, htype⟩ := h.of_map
    exact hclass htype
  · obtain ⟨name, rfl, hname⟩ := h.of_map
    exact sound_typeVariable hname
  · next hhead =>
    have htext := eq_cons_of_headD hhead (by decide)
    rw [reads_advance_iff, reads_peek_iff] at h
    generalize text.drop 1 = after at h htext
    subst htext
    split at h
    · next base hletter =>
      rw [reads_advance_iff] at h
      obtain ⟨rfl, rfl⟩ := reads_pure_iff.mp h
      exact ⟨congrArg ('[' :: ·) (eq_cons_of_ofLetter? hletter), trivial⟩
    · obtain ⟨element, rfl, helement⟩ := h.of_map
      obtain ⟨rfl, hderivation⟩ := hreference helement
      exact ⟨rfl, hderivation⟩
  · exact absurd h not_reads_fail

theorem Sound.classType_succ (hargs : Sound (arguments fuel) Args.text Args.Derivation)
    (hinner : Sound (innerTypes fuel) Inner.text Inner.Derivation) :
    Sound (classType (fuel + 1)) ClassType.text ClassType.Derivation := by
  intro text type rest h
  rw [classType] at h
  obtain ⟨_, mid, hexpect, hmid⟩ := reads_bind_iff.mp h
  obtain rfl := hexpect.of_expect (by decide)
  obtain ⟨name, mid₁, hname, hmid₁⟩ := reads_bind_iff.mp hmid
  obtain ⟨args, mid₂, hargs', hmid₂⟩ := reads_bind_iff.mp hmid₁
  obtain ⟨inner, mid₃, hinner', hmid₃⟩ := reads_bind_iff.mp hmid₂
  obtain ⟨_, mid₄, hclose, hend⟩ := reads_bind_iff.mp hmid₃
  obtain rfl := hclose.of_expect (by decide)
  obtain ⟨rfl, rfl⟩ := reads_pure_iff.mp hend
  obtain ⟨rfl, hne, hfree, -⟩ := hname.of_identifier
  obtain ⟨rfl, hargs⟩ := hargs hargs'
  obtain ⟨rfl, hinner⟩ := hinner hinner'
  exact ⟨by simp [ClassType.text], ⟨hne, hfree⟩, hargs, hinner⟩

theorem Sound.innerTypes_succ (hargs : Sound (arguments fuel) Args.text Args.Derivation)
    (hinner : Sound (innerTypes fuel) Inner.text Inner.Derivation) :
    Sound (innerTypes (fuel + 1)) Inner.text Inner.Derivation := by
  intro text inner rest h
  rw [innerTypes, reads_peek_iff] at h
  split at h
  · next hhead =>
    have htext := eq_cons_of_headD hhead (by decide)
    rw [reads_advance_iff] at h
    obtain ⟨name, mid₁, hname, hmid₁⟩ := reads_bind_iff.mp h
    obtain ⟨args, mid₂, hargs', hmid₂⟩ := reads_bind_iff.mp hmid₁
    obtain ⟨more, mid₃, hinner', hend⟩ := reads_bind_iff.mp hmid₂
    obtain ⟨rfl, rfl⟩ := reads_pure_iff.mp hend
    obtain ⟨hrest, hne, hfree, -⟩ := hname.of_identifier
    obtain ⟨rfl, hargs⟩ := hargs hargs'
    obtain ⟨rfl, hinner⟩ := hinner hinner'
    exact ⟨by rw [htext, hrest]; simp [Inner.text], ⟨hne, hfree⟩, hargs, hinner⟩
  · obtain ⟨rfl, rfl⟩ := reads_pure_iff.mp h
    exact ⟨rfl, trivial⟩

theorem Sound.arguments_succ
    (hitems : Sound (argumentList fuel) (fun items => items.text ++ ['>']) ArgList.Derivation) :
    Sound (arguments (fuel + 1)) Args.text Args.Derivation := by
  intro text args rest h
  rw [arguments, reads_peek_iff] at h
  split at h
  · next hhead =>
    have htext := eq_cons_of_headD hhead (by decide)
    rw [reads_advance_iff] at h
    obtain ⟨items, rfl, hitems'⟩ := h.of_map
    obtain ⟨hrest, hderivation⟩ := hitems hitems'
    exact ⟨by rw [htext, hrest]; simp [Args.text], hderivation⟩
  · obtain ⟨rfl, rfl⟩ := reads_pure_iff.mp h
    exact ⟨rfl, trivial⟩

/-- A type argument with what comes behind it, and the rest of the list. -/
theorem Sound.argument {variance : Variance} {text rest : List Char} {items : ArgList}
    (hreference : Sound (reference fuel) RefType.text RefType.Derivation)
    (hitems : Sound (argumentList fuel) (fun items => items.text ++ ['>']) ArgList.Derivation)
    (h : Reads (do
      let type ← reference fuel
      return ArgList.cons variance type (← argumentList fuel)) text items rest) :
    variance.sign ++ text = items.text ++ ['>'] ++ rest ∧ items.Derivation := by
  obtain ⟨type, mid, htype, hmid⟩ := reads_bind_iff.mp h
  obtain ⟨more, rfl, hmore⟩ := hmid.of_map
  obtain ⟨rfl, hfirst⟩ := hreference htype
  obtain ⟨rfl, hothers⟩ := hitems hmore
  exact ⟨by simp [ArgList.text], hfirst, hothers⟩

theorem Sound.argumentList_succ
    (hreference : Sound (reference fuel) RefType.text RefType.Derivation)
    (hitems : Sound (argumentList fuel) (fun items => items.text ++ ['>']) ArgList.Derivation) :
    Sound (argumentList (fuel + 1)) (fun items => items.text ++ ['>']) ArgList.Derivation := by
  intro text items rest h
  rw [argumentList, reads_peek_iff] at h
  split at h
  · next hhead =>
    rw [reads_advance_iff] at h
    obtain ⟨rfl, rfl⟩ := reads_pure_iff.mp h
    exact ⟨eq_cons_of_headD hhead (by decide), trivial⟩
  · -- The text has ended, or it goes on with a NUL.
    exact absurd h not_reads_fail
  · next hhead =>
    have htext := eq_cons_of_headD hhead (by decide)
    rw [reads_advance_iff] at h
    obtain ⟨more, rfl, hmore⟩ := h.of_map
    obtain ⟨hrest, hderivation⟩ := hitems hmore
    exact ⟨by rw [htext, hrest]; rfl, hderivation⟩
  · next hhead =>
    rw [eq_cons_of_headD hhead (by decide)]
    exact Sound.argument hreference hitems h
  · next hhead =>
    rw [eq_cons_of_headD hhead (by decide)]
    exact Sound.argument hreference hitems h
  · -- No sign stands in front of the type.
    show Variance.exactly.sign ++ text = _ ∧ _
    exact Sound.argument hreference hitems h

/-- With some fuel, the readers of types take derivations from the front of a text. -/
structure TypesSound (fuel : Nat) : Prop where
  reference : Sound (reference fuel) RefType.text RefType.Derivation
  classType : Sound (classType fuel) ClassType.text ClassType.Derivation
  arguments : Sound (arguments fuel) Args.text Args.Derivation
  argumentList :
    Sound (argumentList fuel) (fun items => items.text ++ ['>']) ArgList.Derivation
  innerTypes : Sound (innerTypes fuel) Inner.text Inner.Derivation

theorem typesSound (fuel : Nat) : TypesSound fuel := by
  induction fuel with
  | zero =>
    -- Without fuel a reader fails, or it takes nothing.
    constructor
    · exact fun _ _ _ h => absurd h not_reads_fail
    · exact fun _ _ _ h => absurd h not_reads_fail
    · intro text args rest h
      obtain ⟨rfl, rfl⟩ := reads_pure_iff.mp h
      exact ⟨rfl, trivial⟩
    · exact fun _ _ _ h => absurd h not_reads_fail
    · intro text inner rest h
      obtain ⟨rfl, rfl⟩ := reads_pure_iff.mp h
      exact ⟨rfl, trivial⟩
  | succ fuel ih =>
    constructor
    · exact .reference_succ ih.classType ih.reference
    · exact .classType_succ ih.arguments ih.innerTypes
    · exact .arguments_succ ih.argumentList
    · exact .argumentList_succ ih.reference ih.argumentList
    · exact .innerTypes_succ ih.arguments ih.innerTypes

theorem sound_javaType (fuel : Nat) :
    Sound (javaType fuel) JavaType.text JavaType.Derivation := by
  intro text type rest h
  unfold javaType at h
  rw [reads_peek_iff] at h
  split at h
  · next base hletter =>
    rw [reads_advance_iff] at h
    obtain ⟨rfl, rfl⟩ := reads_pure_iff.mp h
    exact ⟨eq_cons_of_ofLetter? hletter, trivial⟩
  · obtain ⟨type', rfl, htype⟩ := h.of_map
    exact (typesSound fuel).reference htype

/-! ### Signatures -/

theorem sound_interfaceBounds (fuel : Nat) :
    Sound (interfaceBounds fuel) (fun bounds => bounds.flatMap fun bound => ':' :: bound.text)
      (fun bounds => ∀ bound ∈ bounds, bound.Derivation) := by
  induction fuel with
  | zero =>
    intro text bounds rest h
    obtain ⟨rfl, rfl⟩ := reads_pure_iff.mp h
    exact ⟨rfl, by simp⟩
  | succ fuel ih =>
    intro text bounds rest h
    rw [interfaceBounds, reads_peek_iff] at h
    split at h
    · next hhead =>
      have htext := eq_cons_of_headD hhead (by decide)
      rw [reads_advance_iff] at h
      obtain ⟨bound, more, mid, rfl, hbound, hmore⟩ := h.of_cons
      obtain ⟨hrest, hfirst⟩ := (typesSound fuel).reference hbound
      obtain ⟨rfl, hothers⟩ := ih hmore
      exact ⟨by rw [htext, hrest]; simp, List.forall_mem_cons.mpr ⟨hfirst, hothers⟩⟩
    · obtain ⟨rfl, rfl⟩ := reads_pure_iff.mp h
      exact ⟨rfl, by simp⟩

theorem sound_classBound (fuel : Nat) :
    Sound (classBound fuel) (fun bound => bound.elim [] RefType.text)
      (fun bound => ∀ type ∈ bound, type.Derivation) := by
  intro text bound rest h
  unfold classBound at h
  rw [reads_peek_iff] at h
  split at h
  · obtain ⟨type, rfl, htype⟩ := h.of_map
    obtain ⟨rfl, hderivation⟩ := (typesSound fuel).reference htype
    exact ⟨rfl, by simpa using hderivation⟩
  · obtain ⟨rfl, rfl⟩ := reads_pure_iff.mp h
    exact ⟨rfl, by simp⟩

/-- A type parameter, at a place where the list of type parameters does not end. -/
theorem Reads.of_typeParam {param : TypeParam} (hopen : text.headD '\x00' ≠ '>')
    (h : Reads (typeParam fuel) text param rest) :
    text = param.text ++ rest ∧ param.Derivation := by
  unfold typeParam at h
  obtain ⟨name, mid, hname, hmid⟩ := reads_bind_iff.mp h
  rw [reads_advance_iff] at hmid
  obtain ⟨bound, mid₁, hbound, hmid₁⟩ := reads_bind_iff.mp hmid
  obtain ⟨bounds, mid₂, hbounds, hmid₂⟩ := reads_bind_iff.mp hmid₁
  rw [reads_atEnd_iff] at hmid₂
  split at hmid₂
  · obtain ⟨_, _, hfail, -⟩ := reads_bind_iff.mp hmid₂
    exact absurd hfail not_reads_fail
  · obtain ⟨rfl, rfl⟩ := reads_pure_iff.mp hmid₂
    obtain ⟨rfl, hne, hfree, c, hc, after, rfl⟩ := hname.of_identifier
    obtain rfl := List.mem_singleton.mp hc
    obtain ⟨hafter, hclass⟩ := sound_classBound fuel hbound
    obtain ⟨rfl, hinterfaces⟩ := sound_interfaceBounds fuel hbounds
    obtain rfl : after = _ := hafter
    constructor
    · rw [TypeParam.text_eq, TypeParam.frontText]
      simp
    · -- The name starts as the text does.
      refine ⟨⟨hne, fun hmem => hfree ':' hmem (by simp), fun hhead => hopen ?_⟩, hclass,
        hinterfaces⟩
      obtain ⟨d, name, rfl⟩ := List.exists_cons_of_ne_nil hne
      exact Option.some.inj hhead

theorem sound_typeParamList (fuel : Nat) :
    Sound (typeParamList fuel) (fun params => params.flatMap TypeParam.text ++ ['>'])
      (fun params => ∀ param ∈ params, param.Derivation) := by
  induction fuel with
  | zero => exact fun _ _ _ h => absurd h not_reads_fail
  | succ fuel ih =>
    intro text params rest h
    rw [typeParamList, reads_peek_iff] at h
    split at h
    · next hhead =>
      rw [reads_advance_iff] at h
      obtain ⟨rfl, rfl⟩ := reads_pure_iff.mp h
      exact ⟨eq_cons_of_headD hhead (by decide), by simp⟩
    · next hopen =>
      obtain ⟨param, more, mid, rfl, hparam, hmore⟩ := h.of_cons
      obtain ⟨rfl, hfirst⟩ := hparam.of_typeParam hopen
      obtain ⟨rfl, hothers⟩ := ih hmore
      exact ⟨by simp, List.forall_mem_cons.mpr ⟨hfirst, hothers⟩⟩

theorem sound_typeParams (fuel : Nat) :
    Sound (typeParams fuel) typeParamsText
      (fun params => ∀ list ∈ params, ∀ param ∈ list, param.Derivation) := by
  intro text params rest h
  unfold typeParams at h
  rw [reads_peek_iff] at h
  split at h
  · next hhead =>
    have htext := eq_cons_of_headD hhead (by decide)
    rw [reads_advance_iff] at h
    obtain ⟨list, rfl, hlist⟩ := h.of_map
    obtain ⟨hrest, hderivation⟩ := sound_typeParamList fuel hlist
    exact ⟨by rw [htext, hrest]; simp [typeParamsText], by simpa using hderivation⟩
  · obtain ⟨rfl, rfl⟩ := reads_pure_iff.mp h
    exact ⟨rfl, by simp⟩

theorem sound_classTypes (fuel : Nat) :
    Sound (classTypes fuel) (fun types => types.flatMap ClassType.text)
      (fun types => ∀ type ∈ types, type.Derivation) := by
  induction fuel with
  | zero =>
    intro text types rest h
    obtain ⟨rfl, rfl⟩ := reads_pure_iff.mp h
    exact ⟨rfl, by simp⟩
  | succ fuel ih =>
    intro text types rest h
    rw [classTypes, reads_atEnd_iff] at h
    split at h
    · obtain ⟨rfl, rfl⟩ := reads_pure_iff.mp h
      exact ⟨rfl, by simp⟩
    · obtain ⟨type, more, mid, rfl, htype, hmore⟩ := h.of_cons
      obtain ⟨rfl, hfirst⟩ := (typesSound fuel).classType htype
      obtain ⟨rfl, hothers⟩ := ih hmore
      exact ⟨by simp, List.forall_mem_cons.mpr ⟨hfirst, hothers⟩⟩

/-- Class types are read up to the end of the text, if the fuel is as much as the text is long: each
    of them takes something. -/
theorem Reads.rest_of_classTypes {types : List ClassType}
    (h : Reads (classTypes fuel) text types rest) (hfuel : text.length ≤ fuel) : rest = [] := by
  induction fuel generalizing text types with
  | zero =>
    obtain ⟨-, rfl⟩ := reads_pure_iff.mp h
    exact List.length_eq_zero_iff.mp (Nat.le_zero.mp hfuel)
  | succ fuel ih =>
    rw [classTypes, reads_atEnd_iff] at h
    split at h
    · next hempty =>
      obtain ⟨-, rfl⟩ := reads_pure_iff.mp h
      exact List.isEmpty_iff.mp hempty
    · obtain ⟨type, more, mid, rfl, htype, hmore⟩ := h.of_cons
      obtain ⟨rfl, -⟩ := (typesSound fuel).classType htype
      have hpos := type.length_text_pos
      rw [List.length_append] at hfuel
      exact ih hmore (by omega)

theorem Reads.of_ofClass {s : OfClass} (h : Reads (ofClass fuel) text s rest)
    (hfuel : text.length ≤ fuel) : text = s.text ∧ s.Derivation := by
  unfold ofClass at h
  obtain ⟨params, mid, hparams, hmid⟩ := reads_bind_iff.mp h
  obtain ⟨superclass, mid₁, hsuper, hmid₁⟩ := reads_bind_iff.mp hmid
  obtain ⟨interfaces, rfl, hinterfaces⟩ := hmid₁.of_map
  obtain ⟨rfl, hparams'⟩ := sound_typeParams fuel hparams
  obtain ⟨rfl, hsuper'⟩ := (typesSound fuel).classType hsuper
  obtain rfl : rest = [] := by
    apply hinterfaces.rest_of_classTypes
    simp only [List.length_append] at hfuel
    omega
  obtain ⟨rfl, hinterfaces'⟩ := sound_classTypes fuel hinterfaces
  exact ⟨by simp [OfClass.text], hparams', hsuper', hinterfaces'⟩

theorem sound_parameterTypes (fuel : Nat) :
    Sound (parameterTypes fuel) (fun types => types.flatMap JavaType.text ++ [')'])
      (fun types => ∀ type ∈ types, type.Derivation) := by
  induction fuel with
  | zero => exact fun _ _ _ h => absurd h not_reads_fail
  | succ fuel ih =>
    intro text types rest h
    rw [parameterTypes, reads_peek_iff] at h
    split at h
    · next hhead =>
      rw [reads_advance_iff] at h
      obtain ⟨rfl, rfl⟩ := reads_pure_iff.mp h
      exact ⟨eq_cons_of_headD hhead (by decide), by simp⟩
    · rw [reads_atEnd_iff] at h
      split at h
      · exact absurd h not_reads_fail
      · obtain ⟨type, more, mid, rfl, htype, hmore⟩ := h.of_cons
        obtain ⟨rfl, hfirst⟩ := sound_javaType fuel htype
        obtain ⟨rfl, hothers⟩ := ih hmore
        exact ⟨by simp, List.forall_mem_cons.mpr ⟨hfirst, hothers⟩⟩

theorem sound_resultType (fuel : Nat) :
    Sound (resultType fuel) (fun result => result.elim ['V'] JavaType.text)
      (fun result => ∀ type ∈ result, type.Derivation) := by
  intro text result rest h
  unfold resultType at h
  rw [reads_peek_iff] at h
  split at h
  · next hhead =>
    rw [reads_advance_iff] at h
    obtain ⟨rfl, rfl⟩ := reads_pure_iff.mp h
    exact ⟨eq_cons_of_headD hhead (by decide), by simp⟩
  · obtain ⟨type, rfl, htype⟩ := h.of_map
    obtain ⟨rfl, hderivation⟩ := sound_javaType fuel htype
    exact ⟨rfl, by simpa using hderivation⟩

theorem Reads.of_thrownType {thrown : Thrown} (h : Reads (thrownType fuel) text thrown rest) :
    '^' :: text = thrown.text ++ rest ∧ thrown.Derivation := by
  unfold thrownType at h
  rw [reads_peek_iff] at h
  split at h
  · obtain ⟨name, rfl, hname⟩ := h.of_map
    obtain ⟨rfl, hderivation⟩ := sound_typeVariable hname
    exact ⟨rfl, hderivation⟩
  · obtain ⟨type, rfl, htype⟩ := h.of_map
    obtain ⟨rfl, hderivation⟩ := (typesSound fuel).classType htype
    exact ⟨rfl, hderivation⟩

theorem sound_thrownTypes (fuel : Nat) :
    Sound (thrownTypes fuel) (fun throws => throws.flatMap Thrown.text)
      (fun throws => ∀ thrown ∈ throws, thrown.Derivation) := by
  induction fuel with
  | zero =>
    intro text throws rest h
    obtain ⟨rfl, rfl⟩ := reads_pure_iff.mp h
    exact ⟨rfl, by simp⟩
  | succ fuel ih =>
    intro text throws rest h
    rw [thrownTypes, reads_peek_iff] at h
    split at h
    · next hhead =>
      have htext := eq_cons_of_headD hhead (by decide)
      rw [reads_advance_iff] at h
      obtain ⟨thrown, more, mid, rfl, hthrown, hmore⟩ := h.of_cons
      obtain ⟨hrest, hfirst⟩ := hthrown.of_thrownType
      obtain ⟨rfl, hothers⟩ := ih hmore
      exact ⟨by rw [htext, hrest]; simp, List.forall_mem_cons.mpr ⟨hfirst, hothers⟩⟩
    · obtain ⟨rfl, rfl⟩ := reads_pure_iff.mp h
      exact ⟨rfl, by simp⟩

theorem Reads.of_endOfText {f : Unit → Parser β} (h : Reads (endOfText >>= f) text b rest) :
    text = [] ∧ Reads (f ()) [] b rest := by
  obtain ⟨⟨⟩, mid, hend, hf⟩ := reads_bind_iff.mp h
  unfold endOfText at hend
  rw [reads_atEnd_iff] at hend
  split at hend
  · next hempty =>
    obtain ⟨-, rfl⟩ := reads_pure_iff.mp hend
    obtain rfl := List.isEmpty_iff.mp hempty
    exact ⟨rfl, hf⟩
  · exact absurd hend not_reads_fail

theorem Reads.of_ofMethod {s : OfMethod} (h : Reads (ofMethod fuel) text s rest) :
    text = s.text ∧ s.Derivation := by
  unfold ofMethod at h
  obtain ⟨params, mid, hparams, hmid⟩ := reads_bind_iff.mp h
  obtain ⟨_, mid₁, hexpect, hmid₁⟩ := reads_bind_iff.mp hmid
  obtain rfl := hexpect.of_expect (by decide)
  obtain ⟨types, mid₂, htypes, hmid₂⟩ := reads_bind_iff.mp hmid₁
  obtain ⟨result, mid₃, hresult, hmid₃⟩ := reads_bind_iff.mp hmid₂
  obtain ⟨throws, mid₄, hthrows, hmid₄⟩ := reads_bind_iff.mp hmid₃
  obtain ⟨rfl, hend⟩ := hmid₄.of_endOfText
  obtain ⟨rfl, rfl⟩ := reads_pure_iff.mp hend
  obtain ⟨rfl, hparams'⟩ := sound_typeParams fuel hparams
  obtain ⟨rfl, htypes'⟩ := sound_parameterTypes fuel htypes
  obtain ⟨rfl, hresult'⟩ := sound_resultType fuel hresult
  obtain ⟨rfl, hthrows'⟩ := sound_thrownTypes fuel hthrows
  refine ⟨?_, hparams', htypes', hresult', hthrows'⟩
  rw [OfMethod.text_eq, OfMethod.frontText, OfMethod.resultText]
  simp

theorem Reads.of_ofField {type : JavaType} (h : Reads (ofField fuel) text type rest) :
    text = type.text ∧ type.Derivation := by
  unfold ofField at h
  obtain ⟨type', mid, htype, hmid⟩ := reads_bind_iff.mp h
  obtain ⟨rfl, hend⟩ := hmid.of_endOfText
  obtain ⟨rfl, rfl⟩ := reads_pure_iff.mp hend
  obtain ⟨rfl, hderivation⟩ := sound_javaType fuel htype
  exact ⟨List.append_nil _, hderivation⟩

end Parser

end ClassAudit.Signature
