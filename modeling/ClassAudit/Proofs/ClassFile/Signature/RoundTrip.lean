import ClassAudit.ClassFile.Signature.Parse
import ClassAudit.Proofs.ClassFile.Signature.Naming

/-! # Reading signatures back

    The text of a well-formed signature is read as the signature itself. `Reads p text a rest` says
    that a reader gives `a` from the front of a text and leaves `rest`. Some readers go on as long
    as they find a mark, so it matters how the rest starts. A reader has enough fuel if it has as
    much as what it reads is long.
-/

namespace ClassAudit.Signature

variable {marks text name rest : List Char} {param : TypeParam} {fuel : Nat}

/-! ### Well-formed signatures -/

/-- The characters that have a meaning in signatures. -/
def reserved : List Char := ['.', ';', '[', '/', '<', '>', ':']

/-- The name of a variable, of a nested class or of a part of a package. -/
def IsIdentifier (name : List Char) : Prop :=
  name ≠ [] ∧ ∀ c ∈ name, c ∉ reserved

/-- The name of a class, which may be in a package. -/
def IsClassName (name : List Char) : Prop :=
  name ≠ [] ∧ ∀ c ∈ name, c = '/' ∨ c ∉ reserved

-- The characters of the name are checked, not all characters that there are.
instance (name : List Char) : Decidable (IsIdentifier name) :=
  @instDecidableAnd _ _ _ (List.decidableBAll _ name)

instance (name : List Char) : Decidable (IsClassName name) :=
  @instDecidableAnd _ _ _ (List.decidableBAll _ name)

mutual

def RefType.WellFormed : RefType → Prop
  | .object type => type.WellFormed
  | .typeVar name => IsIdentifier name
  | .baseArray _ => True
  | .array element => element.WellFormed

def ClassType.WellFormed : ClassType → Prop
  | .mk name args inner => IsClassName name ∧ args.WellFormed ∧ inner.WellFormed

def Args.WellFormed : Args → Prop
  | .absent => True
  | .given items => items.WellFormed

def ArgList.WellFormed : ArgList → Prop
  | .nil => True
  | .any rest => rest.WellFormed
  | .cons _ type rest => type.WellFormed ∧ rest.WellFormed

def Inner.WellFormed : Inner → Prop
  | .nil => True
  | .cons name args rest => IsIdentifier name ∧ args.WellFormed ∧ rest.WellFormed

end

def JavaType.WellFormed : JavaType → Prop
  | .base _ => True
  | .ref type => type.WellFormed

/-- A type parameter has a bound: the text of one without a bound runs into what follows. -/
structure TypeParam.WellFormed (param : TypeParam) : Prop where
  name : IsIdentifier param.name
  classBound : ∀ bound ∈ param.classBound, bound.WellFormed
  interfaceBounds : ∀ bound ∈ param.interfaceBounds, bound.WellFormed
  bounded : param.classBound = none → param.interfaceBounds ≠ []

structure OfClass.WellFormed (s : OfClass) : Prop where
  typeParams : ∀ params ∈ s.typeParams, ∀ param ∈ params, param.WellFormed
  superclass : s.superclass.WellFormed
  interfaces : ∀ type ∈ s.interfaces, type.WellFormed

def Thrown.WellFormed : Thrown → Prop
  | .typeVar name => IsIdentifier name
  | .object type => type.WellFormed

structure OfMethod.WellFormed (s : OfMethod) : Prop where
  typeParams : ∀ params ∈ s.typeParams, ∀ param ∈ params, param.WellFormed
  parameters : ∀ type ∈ s.parameters, type.WellFormed
  result : ∀ type ∈ s.result, type.WellFormed
  throws : ∀ thrown ∈ s.throws, thrown.WellFormed

/-! ### How texts start -/

/-- A text starts with one of some characters. -/
def StartsIn (marks text : List Char) : Prop :=
  ∃ c ∈ marks, ∃ rest, text = c :: rest

theorem StartsIn.mono {marks' : List Char} (h : StartsIn marks text) (hmarks : marks ⊆ marks') :
    StartsIn marks' text := by
  obtain ⟨c, hc, rest, rfl⟩ := h
  exact ⟨c, hmarks hc, rest, rfl⟩

theorem StartsIn.length_pos (h : StartsIn marks text) : 0 < text.length := by
  obtain ⟨c, -, rest, rfl⟩ := h
  exact Nat.succ_pos _

theorem IsIdentifier.isClassName (h : IsIdentifier name) : IsClassName name :=
  ⟨h.1, fun c hc => .inr (h.2 c hc)⟩

theorem ClassType.startsIn (type : ClassType) (rest : List Char) :
    StartsIn ['L'] (type.text ++ rest) := by
  cases type
  exact ⟨'L', by simp, _, rfl⟩

theorem ClassType.length_text_pos (type : ClassType) : 0 < type.text.length := by
  simpa using (type.startsIn []).length_pos

theorem RefType.startsIn (type : RefType) (rest : List Char) :
    StartsIn ['L', 'T', '['] (type.text ++ rest) := by
  cases type with
  | object type => exact (type.startsIn rest).mono (by simp)
  | typeVar name => exact ⟨'T', by simp, _, rfl⟩
  | baseArray element => exact ⟨'[', by simp, _, rfl⟩
  | array element => exact ⟨'[', by simp, _, rfl⟩

theorem RefType.length_text_pos (type : RefType) : 0 < type.text.length := by
  simpa using (type.startsIn []).length_pos

theorem TypeParam.WellFormed.exists_start (h : param.WellFormed) (rest : List Char) :
    ∃ c tail, param.text ++ rest = c :: tail ∧ c ∉ reserved := by
  obtain ⟨c, name, hname⟩ := List.exists_cons_of_ne_nil h.name.1
  rw [TypeParam.text, hname]
  exact ⟨c, _, rfl, h.name.2 c (by simp [hname])⟩

theorem TypeParam.WellFormed.length_text_pos (h : param.WellFormed) : 0 < param.text.length := by
  obtain ⟨c, tail, htext, -⟩ := h.exists_start []
  rw [List.append_nil] at htext
  rw [htext]
  exact Nat.succ_pos _

theorem Inner.startsIn (inner : Inner) (rest : List Char) :
    StartsIn ['.', ';'] (inner.text ++ ';' :: rest) := by
  cases inner with
  | nil => exact ⟨';', by simp, _, rfl⟩
  | cons name args inner => exact ⟨'.', by simp, _, rfl⟩

theorem Args.startsIn (args : Args) (h : StartsIn ['.', ';'] rest) :
    StartsIn Parser.segmentStops (args.text ++ rest) := by
  cases args with
  | absent => exact h.mono (by simp [Parser.segmentStops])
  | given items => exact ⟨'<', by simp [Parser.segmentStops], _, rfl⟩

/-- A type of a value closes no list of parameters, and it is not the sign for no result. -/
theorem JavaType.exists_start (type : JavaType) (rest : List Char) :
    ∃ c tail, type.text ++ rest = c :: tail ∧ c ≠ ')' ∧ c ≠ 'V' := by
  cases type with
  | base type => exact ⟨type.letter, rest, rfl, by cases type <;> decide, by cases type <;> decide⟩
  | ref type =>
    obtain ⟨c, hc, tail, htext⟩ := type.startsIn rest
    exact ⟨c, tail, htext, by rintro rfl; simp at hc, by rintro rfl; simp at hc⟩

theorem JavaType.length_text_pos (type : JavaType) : 0 < type.text.length := by
  cases type with
  | base type => exact Nat.one_pos
  | ref type => exact type.length_text_pos

theorem Thrown.length_text_pos (thrown : Thrown) : 0 < thrown.text.length := by
  cases thrown <;> exact Nat.succ_pos _

/-! ### Readers -/

namespace Parser

variable {α β : Type} {text text' rest : List Char}
variable {b : β}

/-- From the front of a text the reader gives `a`, and it leaves `rest`. -/
def Reads (p : Parser α) (text : List Char) (a : α) (rest : List Char) : Prop :=
  p text = .ok (a, rest)

namespace Reads

theorem pure (a : α) : Reads (Pure.pure a) rest a rest := rfl

theorem bind {p : Parser α} {f : α → Parser β} {a : α} (hp : Reads p text a text')
    (hf : Reads (f a) text' b rest) : Reads (p >>= f) text b rest := by
  show (p text >>= fun x => f x.1 x.2) = _
  rw [hp]
  exact hf

theorem peek {f : Char → Parser β} {c : Char} (hf : Reads (f c) (c :: text) b rest) :
    Reads (Parser.peek >>= f) (c :: text) b rest := hf

/-- The next character is known to be one of some. -/
theorem peek_of_startsIn {f : Char → Parser β} (hstart : StartsIn marks text)
    (hf : ∀ c ∈ marks, Reads (f c) text b rest) : Reads (Parser.peek >>= f) text b rest := by
  obtain ⟨c, hc, tail, rfl⟩ := hstart
  exact peek (hf c hc)

theorem advance (c : Char) : Reads Parser.advance (c :: rest) () rest := rfl

theorem expect (c : Char) : Reads (Parser.expect c) (c :: rest) () rest := by
  unfold Parser.expect
  refine peek ?_
  rw [if_neg (by simp)]
  exact advance c

theorem atEnd_cons (c : Char) (text : List Char) :
    Reads Parser.atEnd (c :: text) false (c :: text) := rfl

theorem identifier {stops : List Char} (hname : name ≠ []) (hfree : ∀ c ∈ name, c ∉ stops)
    (hrest : StartsIn stops rest) : Reads (Parser.identifier stops) (name ++ rest) name rest := by
  obtain ⟨c, hc, rest, rfl⟩ := hrest
  have hfree' : ∀ c ∈ name, decide (c ∉ stops) = true := by simpa using hfree
  unfold Reads Parser.identifier
  rw [List.takeWhile_append_of_pos hfree', List.dropWhile_append_of_pos hfree',
    List.takeWhile_cons_of_neg (by simpa), List.dropWhile_cons_of_neg (by simpa), List.append_nil]
  cases name with
  | nil => exact absurd rfl hname
  | cons d name => rfl

end Reads

end Parser

/-! ### Types -/

open Signature.Parser

theorem IsIdentifier.reads {stops : List Char} (h : IsIdentifier name) (hstops : stops ⊆ reserved)
    (hrest : StartsIn stops rest) : Reads (identifier stops) (name ++ rest) name rest :=
  .identifier h.1 (fun c hc hstop => h.2 c hc (hstops hstop)) hrest

theorem IsClassName.reads (h : IsClassName name) (hrest : StartsIn segmentStops rest) :
    Reads (identifier segmentStops) (name ++ rest) name rest := by
  refine .identifier h.1 (fun c hc hstop => ?_) hrest
  obtain rfl | hfree := h.2 c hc
  · exact absurd hstop (by decide)
  · exact hfree ((show segmentStops ⊆ reserved by decide) hstop)

theorem reads_typeVariable (h : IsIdentifier name) :
    Reads typeVariable ('T' :: (name ++ ';' :: rest)) name rest := by
  have hname := h.reads (show [';'] ⊆ reserved by decide) ⟨';', by simp, rest, rfl⟩
  exact (Reads.expect 'T').bind (hname.bind ((Reads.advance ';').bind (.pure name)))

theorem ofLetter?_eq_none {c : Char} (h : c ∈ ['L', 'T', '[']) : BaseType.ofLetter? c = none := by
  simp only [List.mem_cons, List.not_mem_nil, or_false] at h
  obtain rfl | rfl | rfl := h <;> rfl

theorem reads_argumentList {text' : List Char} {type : RefType} {items : ArgList}
    (hstart : StartsIn ['L', 'T', '['] text) (htype : Reads (reference fuel) text type text')
    (hitems : Reads (argumentList fuel) text' items rest) :
    Reads (argumentList (fuel + 1)) text (.cons .exactly type items) rest := by
  refine .peek_of_startsIn hstart fun c hc => ?_
  simp only [List.mem_cons, List.not_mem_nil, or_false] at hc
  obtain rfl | rfl | rfl := hc <;> exact htype.bind (hitems.bind (.pure _))

-- The induction is on the tree. A reader hands on one less of its fuel than it has, and what it reads
-- next is shorter by a character at least. Only a reference that is a class type hands on its whole
-- text, and so a class type gets along with one less than its length: its name takes up the
-- difference.
mutual

theorem RefType.reads : (type : RefType) → type.WellFormed → ∀ {fuel : Nat} (rest : List Char),
    type.text.length ≤ fuel → Reads (reference fuel) (type.text ++ rest) type rest
  | .object type, hwf, fuel, rest, hfuel => by
    have hpos := (RefType.object type).length_text_pos
    obtain _ | fuel := fuel
    · omega
    have hread := type.reads hwf rest hfuel
    rw [RefType.text]
    refine .peek_of_startsIn (type.startsIn rest) fun c hc => ?_
    rw [List.mem_singleton.mp hc]
    exact hread.bind (.pure _)
  | .typeVar name, hwf, fuel, rest, hfuel => by
    have hpos := (RefType.typeVar name).length_text_pos
    obtain _ | fuel := fuel
    · omega
    simp only [RefType.text, List.cons_append, List.append_assoc, List.nil_append]
    exact .peek ((reads_typeVariable hwf).bind (.pure _))
  | .baseArray element, hwf, fuel, rest, hfuel => by
    have hpos := (RefType.baseArray element).length_text_pos
    obtain _ | fuel := fuel
    · omega
    refine .peek ((Reads.advance '[').bind (.peek ?_))
    cases element <;> rfl
  | .array element, hwf, fuel, rest, hfuel => by
    have hpos := (RefType.array element).length_text_pos
    obtain _ | fuel := fuel
    · omega
    have hread := element.reads hwf rest (Nat.le_of_succ_le_succ hfuel)
    rw [RefType.text, List.cons_append]
    refine .peek ((Reads.advance '[').bind ?_)
    refine .peek_of_startsIn (element.startsIn rest) fun c hc => ?_
    rw [ofLetter?_eq_none hc]
    exact hread.bind (.pure _)

theorem ClassType.reads : (type : ClassType) → type.WellFormed →
    ∀ {fuel : Nat} (rest : List Char), type.text.length ≤ fuel + 1 →
      Reads (classType fuel) (type.text ++ rest) type rest
  | .mk name args inner, hwf, fuel, rest, hfuel => by
    obtain ⟨hname, hargs, hinner⟩ := hwf
    have hpos := List.length_pos_iff.mpr hname.1
    simp only [ClassType.text, List.length_append, List.length_cons, List.length_nil] at hfuel
    obtain _ | fuel := fuel
    · omega
    have hstart := inner.startsIn rest
    have hread₁ := hname.reads (args.startsIn hstart)
    have hread₂ := args.reads hargs hstart (show _ ≤ fuel by omega)
    have hread₃ := inner.reads hinner rest (show _ ≤ fuel by omega)
    simp only [ClassType.text, List.cons_append, List.append_assoc, List.nil_append]
    exact (Reads.expect 'L').bind (hread₁.bind (hread₂.bind (hread₃.bind
      ((Reads.expect ';').bind (.pure _)))))

theorem Args.reads : (args : Args) → args.WellFormed → ∀ {fuel : Nat} {rest : List Char},
    StartsIn ['.', ';'] rest → args.text.length ≤ fuel →
      Reads (arguments fuel) (args.text ++ rest) args rest
  | .absent, hwf, fuel, rest, hrest, hfuel => by
    cases fuel with
    | zero => exact .pure _
    | succ fuel =>
      refine .peek_of_startsIn hrest fun c hc => ?_
      rw [if_neg (by rintro rfl; simp at hc)]
      exact .pure _
  | .given items, hwf, fuel, rest, hrest, hfuel => by
    simp only [Args.text, List.length_append, List.length_cons, List.length_nil] at hfuel
    obtain _ | fuel := fuel
    · omega
    have hread := items.reads hwf rest (show _ < fuel by omega)
    simp only [Args.text, List.cons_append, List.append_assoc, List.nil_append]
    exact .peek ((Reads.advance '<').bind (hread.bind (.pure _)))

theorem ArgList.reads : (items : ArgList) → items.WellFormed →
    ∀ {fuel : Nat} (rest : List Char), items.text.length < fuel →
      Reads (argumentList fuel) (items.text ++ '>' :: rest) items rest
  | .nil, hwf, fuel, rest, hfuel => by
    obtain _ | fuel := fuel
    · omega
    exact .peek ((Reads.advance '>').bind (.pure _))
  | .any items, hwf, fuel, rest, hfuel => by
    obtain _ | fuel := fuel
    · omega
    have hread := items.reads hwf rest (Nat.lt_of_succ_lt_succ hfuel)
    exact .peek ((Reads.advance '*').bind (hread.bind (.pure _)))
  | .cons variance type items, hwf, fuel, rest, hfuel => by
    have hpos := type.length_text_pos
    simp only [ArgList.text, List.length_append] at hfuel
    obtain _ | fuel := fuel
    · omega
    have htype := type.reads hwf.1 (items.text ++ '>' :: rest) (show _ ≤ fuel by omega)
    have hitems := items.reads hwf.2 rest (show _ < fuel by omega)
    simp only [ArgList.text, List.append_assoc]
    cases variance with
    | exactly => exact reads_argumentList (type.startsIn _) htype hitems
    | subtypes => exact .peek ((Reads.advance '+').bind (htype.bind (hitems.bind (.pure _))))
    | supertypes => exact .peek ((Reads.advance '-').bind (htype.bind (hitems.bind (.pure _))))

theorem Inner.reads : (inner : Inner) → inner.WellFormed → ∀ {fuel : Nat} (rest : List Char),
    inner.text.length ≤ fuel →
      Reads (innerTypes fuel) (inner.text ++ ';' :: rest) inner (';' :: rest)
  | .nil, hwf, fuel, rest, hfuel => by
    cases fuel with
    | zero => exact .pure _
    | succ fuel => exact .peek (.pure _)
  | .cons name args inner, hwf, fuel, rest, hfuel => by
    obtain ⟨hname, hargs, hinner⟩ := hwf
    simp only [Inner.text, List.length_append, List.length_cons] at hfuel
    obtain _ | fuel := fuel
    · omega
    have hstart := inner.startsIn rest
    have hread₁ := hname.isClassName.reads (args.startsIn hstart)
    have hread₂ := args.reads hargs hstart (show _ ≤ fuel by omega)
    have hread₃ := inner.reads hinner rest (show _ ≤ fuel by omega)
    simp only [Inner.text, List.cons_append, List.append_assoc]
    exact .peek ((Reads.advance '.').bind (hread₁.bind (hread₂.bind (hread₃.bind (.pure _)))))

end

theorem JavaType.reads {type : JavaType} (hwf : type.WellFormed) (rest : List Char)
    (hfuel : type.text.length ≤ fuel) : Reads (javaType fuel) (type.text ++ rest) type rest := by
  cases type with
  | base type =>
    refine .peek ?_
    cases type <;> rfl
  | ref type =>
    have hread := type.reads hwf rest hfuel
    rw [JavaType.text]
    refine .peek_of_startsIn (type.startsIn rest) fun c hc => ?_
    rw [ofLetter?_eq_none hc]
    exact hread.bind (.pure _)

/-! ### Signatures -/

theorem reads_interfaceBounds {bounds : List RefType} (hwf : ∀ bound ∈ bounds, bound.WellFormed)
    (hrest : ∃ c tail, rest = c :: tail ∧ c ≠ ':')
    (hfuel : (bounds.flatMap fun bound => ':' :: bound.text).length ≤ fuel) :
    Reads (interfaceBounds fuel) ((bounds.flatMap fun bound => ':' :: bound.text) ++ rest) bounds
      rest := by
  induction bounds generalizing fuel with
  | nil =>
    cases fuel with
    | zero => exact .pure _
    | succ fuel =>
      obtain ⟨c, tail, rfl, hc⟩ := hrest
      refine .peek ?_
      rw [if_neg hc]
      exact .pure _
  | cons bound bounds ih =>
    obtain ⟨hbound, hbounds⟩ := List.forall_mem_cons.mp hwf
    simp only [List.flatMap_cons, List.length_append, List.length_cons] at hfuel
    obtain _ | fuel := fuel
    · omega
    have hread := bound.reads hbound ((bounds.flatMap fun bound => ':' :: bound.text) ++ rest)
      (show _ ≤ fuel by omega)
    have hreads := ih hbounds (show _ ≤ fuel by omega)
    simp only [List.flatMap_cons, List.cons_append, List.append_assoc]
    exact .peek ((Reads.advance ':').bind (hread.bind (hreads.bind (.pure _))))

/-- A class bound is read if there is one; else there is an interface bound, which starts with a
    colon. -/
theorem reads_classBound {bound : Option RefType} (hwf : ∀ type ∈ bound, type.WellFormed)
    (rest : List Char) (hrest : bound = none → StartsIn [':'] rest)
    (hfuel : (bound.elim [] RefType.text).length ≤ fuel) :
    Reads (classBound fuel) (bound.elim [] RefType.text ++ rest) bound rest := by
  cases bound with
  | none =>
    refine .peek_of_startsIn (hrest rfl) fun c hc => ?_
    rw [List.mem_singleton.mp hc]
    exact .pure _
  | some type =>
    have hread := type.reads (hwf type rfl) rest hfuel
    rw [Option.elim_some]
    refine .peek_of_startsIn (type.startsIn rest) fun c hc => ?_
    rw [if_pos (by simpa using hc)]
    exact hread.bind (.pure _)

theorem TypeParam.reads (hwf : param.WellFormed) (hrest : ∃ c tail, rest = c :: tail ∧ c ≠ ':')
    (hfuel : param.text.length ≤ fuel) :
    Reads (typeParam fuel) (param.text ++ rest) param rest := by
  simp only [param.text_eq, TypeParam.frontText, List.length_append, List.length_cons] at hfuel
  have hname := hwf.name.reads (show [':'] ⊆ reserved by decide)
    ⟨':', by simp, param.classBound.elim [] RefType.text ++
      ((param.interfaceBounds.flatMap fun bound => ':' :: bound.text) ++ rest), rfl⟩
  have hbounded : param.classBound = none → StartsIn [':']
      ((param.interfaceBounds.flatMap fun bound => ':' :: bound.text) ++ rest) := by
    intro hnone
    obtain ⟨bound, bounds, hbounds⟩ := List.exists_cons_of_ne_nil (hwf.bounded hnone)
    rw [hbounds]
    exact ⟨':', by simp, _, rfl⟩
  have hclass := reads_classBound hwf.classBound _ hbounded (show _ ≤ fuel by omega)
  have hinterfaces := reads_interfaceBounds hwf.interfaceBounds hrest (show _ ≤ fuel by omega)
  simp only [param.text_eq, TypeParam.frontText, List.cons_append, List.append_assoc]
  refine hname.bind ((Reads.advance ':').bind (hclass.bind (hinterfaces.bind ?_)))
  obtain ⟨c, tail, rfl, -⟩ := hrest
  rfl

/-- Behind a type parameter comes another one or the closing bracket. -/
theorem exists_start_typeParams {params : List TypeParam} (hwf : ∀ param ∈ params, param.WellFormed)
    (rest : List Char) :
    ∃ c tail, params.flatMap TypeParam.text ++ '>' :: rest = c :: tail ∧ c ≠ ':' := by
  cases params with
  | nil => exact ⟨'>', rest, rfl, by decide⟩
  | cons param params =>
    obtain ⟨c, tail, htext, hc⟩ := (hwf param List.mem_cons_self).exists_start
      (params.flatMap TypeParam.text ++ '>' :: rest)
    rw [List.flatMap_cons, List.append_assoc]
    refine ⟨c, tail, htext, ?_⟩
    rintro rfl
    exact hc (by decide)

theorem reads_typeParamList {params : List TypeParam} (hwf : ∀ param ∈ params, param.WellFormed)
    (rest : List Char) (hfuel : (params.flatMap TypeParam.text).length < fuel) :
    Reads (typeParamList fuel) (params.flatMap TypeParam.text ++ '>' :: rest) params rest := by
  induction params generalizing fuel with
  | nil =>
    obtain _ | fuel := fuel
    · omega
    exact .peek ((Reads.advance '>').bind (.pure _))
  | cons param params ih =>
    obtain ⟨hparam, hparams⟩ := List.forall_mem_cons.mp hwf
    obtain ⟨c, tail, htext, hc⟩ :=
      hparam.exists_start (params.flatMap TypeParam.text ++ '>' :: rest)
    have hpos := hparam.length_text_pos
    simp only [List.flatMap_cons, List.length_append] at hfuel
    obtain _ | fuel := fuel
    · omega
    have hread := TypeParam.reads hparam (exists_start_typeParams hparams rest)
      (show _ ≤ fuel by omega)
    have hreads := ih hparams (show _ < fuel by omega)
    rw [List.flatMap_cons, List.append_assoc]
    rw [htext] at hread ⊢
    refine .peek ?_
    have hne : c ≠ '>' := by
      rintro rfl
      exact hc (by decide)
    rw [if_neg hne]
    exact hread.bind (hreads.bind (.pure _))

/-- Type parameters, before a superclass or a list of parameters. -/
theorem reads_typeParams {params : Option (List TypeParam)}
    (hwf : ∀ list ∈ params, ∀ param ∈ list, param.WellFormed) (hrest : StartsIn ['L', '('] rest)
    (hfuel : (typeParamsText params).length ≤ fuel) :
    Reads (typeParams fuel) (typeParamsText params ++ rest) params rest := by
  cases params with
  | none =>
    refine .peek_of_startsIn hrest fun c hc => ?_
    rw [if_neg (by rintro rfl; simp at hc)]
    exact .pure _
  | some params =>
    simp only [typeParamsText, List.length_append, List.length_cons, List.length_nil] at hfuel
    have hread := reads_typeParamList (hwf params rfl) rest (show _ < fuel by omega)
    simp only [typeParamsText, List.cons_append, List.append_assoc, List.nil_append]
    exact .peek ((Reads.advance '<').bind (hread.bind (.pure _)))

theorem reads_classTypes {types : List ClassType} (hwf : ∀ type ∈ types, type.WellFormed)
    (hfuel : (types.flatMap ClassType.text).length ≤ fuel) :
    Reads (classTypes fuel) (types.flatMap ClassType.text) types [] := by
  induction types generalizing fuel with
  | nil => cases fuel <;> rfl
  | cons type types ih =>
    obtain ⟨htype, htypes⟩ := List.forall_mem_cons.mp hwf
    have hpos := type.length_text_pos
    simp only [List.flatMap_cons, List.length_append] at hfuel
    obtain _ | fuel := fuel
    · omega
    have hread := type.reads htype (types.flatMap ClassType.text) (show _ ≤ fuel + 1 by omega)
    have hreads := ih htypes (show _ ≤ fuel by omega)
    obtain ⟨c, -, tail, htext⟩ := type.startsIn (types.flatMap ClassType.text)
    rw [List.flatMap_cons]
    rw [htext] at hread ⊢
    exact (Reads.atEnd_cons c tail).bind (hread.bind (hreads.bind (.pure _)))

/-- The text of a well-formed class signature is read as that signature. -/
theorem OfClass.reads {s : OfClass} (hwf : s.WellFormed) (hfuel : s.text.length ≤ fuel) :
    Reads (ofClass fuel) s.text s [] := by
  simp only [OfClass.text, List.length_append] at hfuel
  have hparams := reads_typeParams hwf.typeParams
    ((s.superclass.startsIn (s.interfaces.flatMap ClassType.text)).mono (by simp))
    (show _ ≤ fuel by omega)
  have hsuper := s.superclass.reads hwf.superclass (s.interfaces.flatMap ClassType.text)
    (show _ ≤ fuel + 1 by omega)
  have hinterfaces := reads_classTypes hwf.interfaces (show _ ≤ fuel by omega)
  rw [OfClass.text, List.append_assoc]
  exact hparams.bind (hsuper.bind (hinterfaces.bind (.pure _)))

theorem reads_parameterTypes {types : List JavaType} (hwf : ∀ type ∈ types, type.WellFormed)
    (rest : List Char) (hfuel : (types.flatMap JavaType.text).length < fuel) :
    Reads (parameterTypes fuel) (types.flatMap JavaType.text ++ ')' :: rest) types rest := by
  induction types generalizing fuel with
  | nil =>
    obtain _ | fuel := fuel
    · omega
    exact .peek ((Reads.advance ')').bind (.pure _))
  | cons type types ih =>
    obtain ⟨htype, htypes⟩ := List.forall_mem_cons.mp hwf
    obtain ⟨c, tail, htext, hc⟩ := type.exists_start (types.flatMap JavaType.text ++ ')' :: rest)
    have hpos := type.length_text_pos
    simp only [List.flatMap_cons, List.length_append] at hfuel
    obtain _ | fuel := fuel
    · omega
    have hread := JavaType.reads htype (types.flatMap JavaType.text ++ ')' :: rest)
      (show _ ≤ fuel by omega)
    have hreads := ih htypes (show _ < fuel by omega)
    rw [List.flatMap_cons, List.append_assoc]
    rw [htext] at hread ⊢
    refine .peek ?_
    rw [if_neg hc.1]
    exact (Reads.atEnd_cons c tail).bind (hread.bind (hreads.bind (.pure _)))

theorem reads_resultType {result : Option JavaType} (hwf : ∀ type ∈ result, type.WellFormed)
    (rest : List Char) (hfuel : (result.elim ['V'] JavaType.text).length ≤ fuel) :
    Reads (resultType fuel) (result.elim ['V'] JavaType.text ++ rest) result rest := by
  cases result with
  | none => exact .peek ((Reads.advance 'V').bind (.pure _))
  | some type =>
    have hread := JavaType.reads (hwf type rfl) rest hfuel
    obtain ⟨c, tail, htext, hc⟩ := type.exists_start rest
    rw [Option.elim_some]
    rw [htext] at hread ⊢
    refine .peek ?_
    rw [if_neg hc.2]
    exact hread.bind (.pure _)

theorem Thrown.reads {thrown : Thrown} (hwf : thrown.WellFormed) (rest : List Char)
    (hfuel : thrown.text.length ≤ fuel + 1) :
    ∃ text, thrown.text ++ rest = '^' :: text ∧ Reads (thrownType fuel) text thrown rest := by
  cases thrown with
  | typeVar name =>
    refine ⟨'T' :: (name ++ ';' :: rest), by simp [Thrown.text], ?_⟩
    exact .peek ((reads_typeVariable hwf).bind (.pure _))
  | object type =>
    refine ⟨type.text ++ rest, rfl, ?_⟩
    have hread := type.reads hwf rest (show _ ≤ fuel + 1 from Nat.le_of_succ_le hfuel)
    refine .peek_of_startsIn (type.startsIn rest) fun c hc => ?_
    rw [List.mem_singleton.mp hc]
    exact hread.bind (.pure _)

theorem reads_thrownTypes {throws : List Thrown} (hwf : ∀ thrown ∈ throws, thrown.WellFormed)
    (hfuel : (throws.flatMap Thrown.text).length ≤ fuel) :
    Reads (thrownTypes fuel) (throws.flatMap Thrown.text) throws [] := by
  induction throws generalizing fuel with
  | nil => cases fuel <;> rfl
  | cons thrown throws ih =>
    obtain ⟨hthrown, hthrows⟩ := List.forall_mem_cons.mp hwf
    have hpos := thrown.length_text_pos
    simp only [List.flatMap_cons, List.length_append] at hfuel
    obtain _ | fuel := fuel
    · omega
    obtain ⟨text, htext, hread⟩ := Thrown.reads hthrown (throws.flatMap Thrown.text)
      (show _ ≤ fuel + 1 by omega)
    have hreads := ih hthrows (show _ ≤ fuel by omega)
    rw [List.flatMap_cons, htext]
    exact .peek ((Reads.advance '^').bind (hread.bind (hreads.bind (.pure _))))

/-- The text of a well-formed method signature is read as that signature. -/
theorem OfMethod.reads {s : OfMethod} (hwf : s.WellFormed) (hfuel : s.text.length ≤ fuel) :
    Reads (ofMethod fuel) s.text s [] := by
  simp only [s.text_eq, OfMethod.frontText, OfMethod.resultText, List.length_append,
    List.length_cons] at hfuel
  have hopen : StartsIn ['L', '('] ('(' :: (s.parameters.flatMap JavaType.text ++
      ')' :: (s.result.elim ['V'] JavaType.text ++ s.throws.flatMap Thrown.text))) :=
    ⟨'(', by simp, _, rfl⟩
  have hparams := reads_typeParams hwf.typeParams hopen (show _ ≤ fuel by omega)
  have htypes := reads_parameterTypes hwf.parameters
    (s.result.elim ['V'] JavaType.text ++ s.throws.flatMap Thrown.text) (show _ < fuel by omega)
  have hresult := reads_resultType hwf.result (s.throws.flatMap Thrown.text)
    (show _ ≤ fuel by omega)
  have hthrows := reads_thrownTypes hwf.throws (show _ ≤ fuel by omega)
  simp only [s.text_eq, OfMethod.frontText, OfMethod.resultText, List.append_assoc,
    List.cons_append]
  exact hparams.bind ((Reads.expect '(').bind (htypes.bind (hresult.bind (hthrows.bind rfl))))

theorem run_eq_ok {α : Type} {p : Nat → Parser α} {a : α}
    (h : ∀ {fuel : Nat}, text.length ≤ fuel → Reads (p fuel) text a []) : run p text = .ok a := by
  have hread : Reads (p (fuelFor text)) text a [] := h (by unfold fuelFor; omega)
  rw [run, hread]
  rfl

theorem OfClass.parse_text {s : OfClass} (hwf : s.WellFormed) :
    parseClass (String.ofList s.text) = .ok s := by
  rw [parseClass, String.toList_ofList, run_eq_ok (OfClass.reads hwf)]
  rfl

theorem OfMethod.parse_text {s : OfMethod} (hwf : s.WellFormed) :
    parseMethod (String.ofList s.text) = .ok s := by
  rw [parseMethod, String.toList_ofList, run_eq_ok (OfMethod.reads hwf)]
  rfl

theorem JavaType.parse_text {type : JavaType} (hwf : type.WellFormed) :
    parseField (String.ofList type.text) = .ok type := by
  have hreads : ∀ {fuel : Nat}, type.text.length ≤ fuel →
      Reads (ofField fuel) type.text type [] := by
    intro fuel hfuel
    have hread := JavaType.reads hwf [] hfuel
    rw [List.append_nil] at hread
    exact hread.bind rfl
  rw [parseField, String.toList_ofList, run_eq_ok hreads]
  rfl

/-! ### Completeness -/

/-- Generic signatures are parsed completely. The text of every well-formed signature is read as
    that signature, and the references of the result are exactly the classes that the text names,
    in its order, each in its position. -/
theorem parse_complete :
    (∀ s : OfClass, s.WellFormed →
      parseClass (String.ofList s.text) = .ok s ∧ Listed s.text s.Names s.refs) ∧
    (∀ s : OfMethod, s.WellFormed →
      parseMethod (String.ofList s.text) = .ok s ∧ Listed s.text s.Names s.refs) ∧
    ∀ type : JavaType, type.WellFormed →
      parseField (String.ofList type.text) = .ok type ∧
        Listed type.text (type.Names .field) (type.refs .field) :=
  ⟨fun s hwf => ⟨OfClass.parse_text hwf, s.listed⟩,
    fun s hwf => ⟨OfMethod.parse_text hwf, s.listed⟩,
    fun type hwf => ⟨JavaType.parse_text hwf, type.listed .field⟩⟩

/-- A nested class of a generic class, with an array and a wildcard among the arguments. -/
def sampleType : ClassType :=
  .mk "a/Outer".toList
    (.given (.cons .exactly (.array (.object (.mk "a/X".toList .absent .nil))) .nil))
    (.cons "Inner".toList
      (.given (.any (.cons .subtypes (.object (.mk "a/Y".toList .absent .nil)) .nil))) .nil)

/-- A type parameter that has an interface bound only. -/
def sampleParam : TypeParam where
  name := "T".toList
  classBound := none
  interfaceBounds := [.object (.mk "a/Ordered".toList
    (.given (.cons .exactly (.typeVar "T".toList) .nil)) .nil)]

def sampleClass : OfClass where
  typeParams := some [sampleParam]
  superclass := .mk "a/Base".toList .absent .nil
  interfaces := [sampleType]

def sampleMethod : OfMethod where
  typeParams := some [sampleParam]
  parameters := [.base .int, .ref (.array (.object sampleType))]
  result := none
  throws := [.typeVar "T".toList, .object (.mk "a/Failure".toList .absent .nil)]

theorem wellFormed_sampleType : sampleType.WellFormed :=
  ⟨by decide, ⟨⟨by decide, trivial, trivial⟩, trivial⟩,
    by decide, ⟨⟨by decide, trivial, trivial⟩, trivial⟩, trivial⟩

theorem wellFormed_sampleParam : sampleParam.WellFormed where
  name := by decide
  classBound := by simp [sampleParam]
  interfaceBounds := by
    intro bound hbound
    obtain rfl := List.mem_singleton.mp hbound
    exact ⟨by decide, ⟨(by decide : IsIdentifier "T".toList), trivial⟩, trivial⟩
  bounded := by simp [sampleParam]

theorem wellFormed_sampleClass : sampleClass.WellFormed where
  typeParams := by
    simpa [sampleClass] using wellFormed_sampleParam
  superclass := ⟨by decide, trivial, trivial⟩
  interfaces := by
    simpa [sampleClass] using wellFormed_sampleType

theorem wellFormed_sampleMethod : sampleMethod.WellFormed where
  typeParams := by
    simpa [sampleMethod] using wellFormed_sampleParam
  parameters := by
    simpa [sampleMethod, JavaType.WellFormed, RefType.WellFormed] using wellFormed_sampleType
  result := by simp [sampleMethod]
  throws := by
    simp [sampleMethod, Thrown.WellFormed, ClassType.WellFormed, Args.WellFormed, Inner.WellFormed]
    decide

/-- The references of the samples are listed in the order of their texts. -/
theorem parse_complete_sample :
    String.ofList sampleClass.text =
      "<T::La/Ordered<TT;>;>La/Base;La/Outer<[La/X;>.Inner<*+La/Y;>;" ∧
    String.ofList sampleMethod.text =
      "<T::La/Ordered<TT;>;>(I[La/Outer<[La/X;>.Inner<*+La/Y;>;)V^TT;^La/Failure;" ∧
    sampleClass.refs.map Ref.name =
      ["a/Ordered", "a/Base", "a/Outer", "a/X", "a/Outer$Inner", "a/Y"] ∧
    (parseClass (String.ofList sampleClass.text) = .ok sampleClass ∧
      Listed sampleClass.text sampleClass.Names sampleClass.refs) ∧
    (parseMethod (String.ofList sampleMethod.text) = .ok sampleMethod ∧
      Listed sampleMethod.text sampleMethod.Names sampleMethod.refs) ∧
    parseField (String.ofList (JavaType.ref (.object sampleType)).text) =
        .ok (JavaType.ref (.object sampleType)) ∧
      Listed (JavaType.ref (.object sampleType)).text
        ((JavaType.ref (.object sampleType)).Names .field)
        ((JavaType.ref (.object sampleType)).refs .field) :=
  ⟨by rfl, by rfl, by rfl, parse_complete.1 sampleClass wellFormed_sampleClass,
    parse_complete.2.1 sampleMethod wellFormed_sampleMethod,
    parse_complete.2.2 (.ref (.object sampleType)) wellFormed_sampleType⟩

end ClassAudit.Signature
