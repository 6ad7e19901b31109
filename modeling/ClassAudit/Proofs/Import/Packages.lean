import ClassAudit.Import.Basic
import ClassAudit.Proofs.ClassFile.Descriptor
import ClassAudit.Proofs.ClassFile.Event

/-! # Imported packages, exactly

    The packages of a class are collected while walking through its events. Here is what is
    collected, part by part of the class and without a walk: `ClassFile.Names` says which names
    stand in a class, and `HasPackage` to which package a name leads. `ClassFile.Unreadable` says
    when the collection fails.

    What a step and what a walk does is described in one way, by `Collects`: either something cannot
    be read and the result is an error, or exactly the packages of some names are added. This is
    shown of each event, then of a walk by induction over its events, and then told by the parts of
    a class.
-/

namespace ClassAudit

variable {name : List Char} {p : String} {add : List String → List String}
  {names names' : List Char → Prop}

open Descriptor (Mentions)

/-! ### Names and packages -/

/-- A name stands for a class: for the one that has the name, or, if it is that of an array, for
    one that the array's descriptor mentions. -/
inductive StandsFor : List Char → List Char → Prop where
  | self {name : List Char} : name.head? ≠ some '[' → StandsFor name name
  | element {rest name cls : List Char} :
      Mentions ('[' :: rest) name → StandsFor name cls → StandsFor ('[' :: rest) cls

/-- A name stands for a class of a package, which is given with dots and is not the default
    package. -/
def HasPackage (name : List Char) (p : String) : Prop :=
  ∃ cls package, StandsFor name cls ∧ ClassName.InPackage cls package ∧
    p = ClassName.binary (String.ofList package)

/-! ### Names in a class -/

/-- The classes that a class's generic type refers to. -/
def Signature.classRefs (signature : String) : Except SignatureError (List Signature.Ref) :=
  (Signature.parseClass signature).map OfClass.refs

def Signature.methodRefs (signature : String) : Except SignatureError (List Signature.Ref) :=
  (Signature.parseMethod signature).map OfMethod.refs

/-- The classes that the generic type of a field or local variable refers to. -/
def Signature.fieldRefs (signature : String) : Except SignatureError (List Signature.Ref) :=
  (Signature.parseField signature).map (JavaType.refs .field)

section

variable (reader : String → Except SignatureError (List Signature.Ref)) (signature : String)

/-- A generic type names a class. Where there is none, the plain types do. -/
def Signature.Names (plain : List Char → Prop) (name : List Char) : Prop :=
  if signature = "" then plain name
  else ∃ refs, reader signature = .ok refs ∧ ∃ r ∈ refs, r.name.toList = name

/-- A generic type is there and cannot be read. -/
def Signature.Unreadable : Prop :=
  signature ≠ "" ∧ ∃ e, reader signature = .error e

end

/-- An annotation names a class: its type, or one that a value refers to. -/
def AnnotationInfo.Names (a : AnnotationInfo) (name : List Char) : Prop :=
  ∃ d ∈ a.descriptor :: a.refs, Mentions d.toList name

/-- An operand names a class: a type, the owner of a member, or one that a descriptor mentions. -/
def Operand.Names (o : Operand) (name : List Char) : Prop :=
  o.typeName.toList = name ∨ o.owner.toList = name ∨ Mentions o.descriptor.toList name

/-- The generic type of a local variable names a class. -/
def LocalVariable.Names (v : LocalVariable) (name : List Char) : Prop :=
  Signature.Names Signature.fieldRefs v.signature (fun _ => False) name

def Code.Names (c : Code) (name : List Char) : Prop :=
  (∃ b ∈ c.catches, b.type.toList = name) ∨ (∃ i ∈ c.instructions, i.operand.Names name) ∨
    ∃ v ∈ c.locals, v.Names name

/-- A field names a class: in its type, or in an annotation. -/
def Field.Names (f : Field) (name : List Char) : Prop :=
  Signature.Names Signature.fieldRefs f.signature (Mentions f.descriptor.toList) name ∨
    ∃ a ∈ f.annotations, a.Names name

/-- A method names a class: in its types, as an exception, in an annotation, or in its code. -/
def Method.Names (m : Method) (name : List Char) : Prop :=
  (Signature.Names Signature.methodRefs m.signature (Mentions m.descriptor.toList) name ∨
      ∃ e ∈ m.exceptions, e.toList = name) ∨
    (∃ a ∈ m.annotations, a.Names name) ∨ ∃ c ∈ m.code, c.Names name

/-- A class names a class: as a supertype, in an annotation, or in a member. -/
def ClassFile.Names (c : ClassFile) (name : List Char) : Prop :=
  Signature.Names Signature.classRefs c.signature
      (fun name => ∃ s ∈ c.superName :: c.interfaces, s.toList = name) name ∨
    (∃ a ∈ c.annotations, a.Names name) ∨ (∃ f ∈ c.fields, f.Names name) ∨
    ∃ m ∈ c.methods, m.Names name

/-- A generic type in a class cannot be read: that of the class, of a field, of a method or of a
    local variable. -/
def ClassFile.Unreadable (c : ClassFile) : Prop :=
  Signature.Unreadable Signature.classRefs c.signature ∨
    (∃ f ∈ c.fields, Signature.Unreadable Signature.fieldRefs f.signature) ∨
    ∃ m ∈ c.methods, Signature.Unreadable Signature.methodRefs m.signature ∨
      ∃ code ∈ m.code, ∃ v ∈ code.locals, Signature.Unreadable Signature.fieldRefs v.signature

namespace ClassImports

/-! ### Adding the packages of names -/

theorem hasPackage_self (h : name.head? ≠ some '[') :
    HasPackage name p ↔ ∃ package, ClassName.InPackage name package ∧
      p = ClassName.binary (String.ofList package) := by
  constructor
  · rintro ⟨cls, package, hstands, hin, rfl⟩
    cases hstands with
    | self _ => exact ⟨package, hin, rfl⟩
    | element _ _ => exact absurd rfl h
  · rintro ⟨package, hin, rfl⟩
    exact ⟨name, package, .self h, hin, rfl⟩

theorem hasPackage_array {rest : List Char} :
    HasPackage ('[' :: rest) p ↔ ∃ name, Mentions ('[' :: rest) name ∧ HasPackage name p := by
  constructor
  · rintro ⟨cls, package, hstands, hin, rfl⟩
    cases hstands with
    | self hne => exact absurd rfl hne
    | element hmentions hstands => exact ⟨_, hmentions, cls, package, hstands, hin, rfl⟩
  · rintro ⟨name, hmentions, cls, package, hstands, hin, rfl⟩
    exact ⟨cls, package, .element hmentions hstands, hin, rfl⟩

/-- Exactly the packages of some names are added. -/
def Adds (add : List String → List String) (names : List Char → Prop) : Prop :=
  ∀ found p, p ∈ add found ↔ p ∈ found ∨ ∃ name, names name ∧ HasPackage name p

theorem adds_nothing : Adds id fun _ => False := by
  intro found p
  simp

theorem adds_one (h : ∀ found p, p ∈ add found ↔ p ∈ found ∨ HasPackage name p) :
    Adds add (name = ·) := by
  intro found p
  rw [h]
  simp only [exists_eq_left']

theorem Adds.comp {f g : List String → List String} (hf : Adds f names) (hg : Adds g names') :
    Adds (fun found => g (f found)) fun name => names name ∨ names' name := by
  intro found p
  rw [hg, hf, or_assoc]
  simp only [or_and_right, exists_or]

/-- Adding for one thing after the other. -/
theorem adds_foldl {α : Type} {add : List String → α → List String} {names : α → List Char → Prop}
    {xs : List α} (h : ∀ x ∈ xs, Adds (add · x) (names x)) :
    Adds (fun found => xs.foldl add found) fun name => ∃ x ∈ xs, names x name := by
  induction xs with
  | nil =>
    simp only [List.not_mem_nil, false_and, exists_false]
    exact adds_nothing
  | cons x xs ih =>
    rw [List.forall_mem_cons] at h
    simp only [List.mem_cons, or_and_right, exists_or, exists_eq_left]
    exact h.1.comp (ih h.2)

theorem mem_addPackage {found : List String} (h : name.head? ≠ some '[') :
    p ∈ addPackage found name ↔ p ∈ found ∨ HasPackage name p := by
  simp only [hasPackage_self h, ClassName.inPackage_iff]
  unfold addPackage
  -- Nothing is added for the default package.
  cases ClassName.packageChars name with
  | nil => simp
  | cons c package =>
    rw [List.mem_cons, or_comm]
    refine or_congr_right ⟨fun hp => ⟨_, ⟨List.cons_ne_nil c package, rfl⟩, hp⟩, ?_⟩
    rintro ⟨_, ⟨-, rfl⟩, hp⟩
    exact hp

/-- An array among the names that a descriptor mentions has no package, since its own descriptor has
    no semicolon. -/
theorem adds_mentioned (h : ';' ∉ name) : Adds (addMentioned · name) (name = ·) := by
  refine adds_one fun found p => ?_
  unfold addMentioned
  split
  · rw [hasPackage_array]
    refine ⟨.inl, fun hp => hp.resolve_right ?_⟩
    rintro ⟨_, hmentions, -⟩
    exact h hmentions.mem
  · rename_i hne
    refine mem_addPackage fun hhead => ?_
    obtain ⟨rest, rfl⟩ := List.head?_eq_some_iff.mp hhead
    exact hne rest rfl

theorem adds_descriptor (descriptor : List Char) :
    Adds (addDescriptor · descriptor) (Mentions descriptor) := by
  have hadd : ∀ name ∈ Descriptor.mentioned descriptor, Adds (addMentioned · name) (name = ·) := by
    intro name hname
    exact adds_mentioned (Descriptor.mem_mentioned_iff.mp hname).not_mem
  have h := adds_foldl hadd
  simp only [Descriptor.mem_mentioned_iff, exists_eq_right] at h
  exact h

theorem adds_name (name : String) : Adds (addName · name) (name.toList = ·) := by
  refine adds_one fun found p => ?_
  unfold addName
  split
  · rename_i rest hname
    rw [hname, hasPackage_array]
    exact adds_descriptor ('[' :: rest) found p
  · rename_i hne
    refine mem_addPackage fun hhead => ?_
    obtain ⟨rest, hrest⟩ := List.head?_eq_some_iff.mp hhead
    exact hne rest hrest

theorem adds_names (names : List String) :
    Adds (addNames · names) fun name => ∃ s ∈ names, s.toList = name :=
  adds_foldl fun s _ => adds_name s

theorem adds_refs (refs : List Signature.Ref) :
    Adds (addRefs · refs) fun name => ∃ r ∈ refs, r.name.toList = name := by
  have h := adds_names (refs.map Signature.Ref.name)
  simp only [List.mem_map, exists_exists_and_eq_and] at h
  exact h

/-! ### Events -/

/-- Either something cannot be read, or exactly the packages of some names are added. -/
def Collects (bad : Prop) (names : List Char → Prop)
    (walk : List String → Except SignatureError (List String)) : Prop :=
  (bad ∧ ∀ found, ∃ e, walk found = .error e) ∨
    (¬ bad ∧ ∃ add, walk = .ok ∘ add ∧ Adds add names)

theorem Adds.collects (h : Adds add names) : Collects False names fun found => .ok (add found) :=
  .inr ⟨id, add, rfl, h⟩

theorem Collects.bind {bad bad' : Prop}
    {walk walk' : List String → Except SignatureError (List String)} (h : Collects bad names walk)
    (h' : Collects bad' names' walk') :
    Collects (bad ∨ bad') (fun name => names name ∨ names' name) fun found =>
      walk found >>= walk' := by
  rcases h with ⟨hbad, herror⟩ | ⟨hgood, add, rfl, hadd⟩
  · refine .inl ⟨.inl hbad, fun found => ?_⟩
    obtain ⟨e, he⟩ := herror found
    refine ⟨e, ?_⟩
    show walk found >>= walk' = _
    rw [he]
    rfl
  · -- The first part goes through, so that the second one decides.
    rcases h' with ⟨hbad', herror⟩ | ⟨hgood', add', rfl, hadd'⟩
    · exact .inl ⟨.inr hbad', fun found => herror (add found)⟩
    · exact .inr ⟨not_or.mpr ⟨hgood, hgood'⟩, _, rfl, hadd.comp hadd'⟩

/-- Walking on without anything that could not be read. -/
theorem Collects.map {bad : Prop} {walk : List String → Except SignatureError (List String)}
    (h : Collects bad names walk) (h' : Adds add names') :
    Collects bad (fun name => names name ∨ names' name) fun found =>
      walk found >>= fun found => .ok (add found) := by
  have hbind := h.bind h'.collects
  rwa [or_false] at hbind

/-- The packages of a generic type are added, or those of the plain types if there is none. -/
theorem collects_signature {T : Type} (parse : String → Except SignatureError T)
    (refs : T → List Signature.Ref) (signature : String) {plain : List String → List String}
    (hplain : Adds plain names) :
    Collects (Signature.Unreadable (fun s => (parse s).map refs) signature)
      (Signature.Names (fun s => (parse s).map refs) signature names) fun found =>
        if signature = "" then .ok (plain found)
        else parse signature >>= fun type => .ok (addRefs found (refs type)) := by
  unfold Signature.Unreadable Signature.Names
  by_cases hnone : signature = ""
  · simp only [if_pos hnone]
    exact .inr ⟨fun h => h.1 hnone, plain, rfl, hplain⟩
  · simp only [if_neg hnone]
    cases hparse : parse signature with
    | error e => exact .inl ⟨⟨hnone, e, rfl⟩, fun _ => ⟨e, rfl⟩⟩
    | ok type =>
      refine .inr ⟨(fun ⟨_, _, h⟩ => nomatch h), (addRefs · (refs type)), rfl, ?_⟩
      have hrefs := adds_refs (refs type)
      simpa [Except.map] using hrefs

end ClassImports

def Event.Names : Event → List Char → Prop
  | .classDeclared _ _ _ signature superName interfaces =>
    Signature.Names Signature.classRefs signature fun name =>
      ∃ s ∈ superName :: interfaces, s.toList = name
  | .fieldDeclared _ _ descriptor signature =>
    Signature.Names Signature.fieldRefs signature (Mentions descriptor.toList)
  | .methodDeclared _ _ descriptor signature exceptions => fun name =>
    Signature.Names Signature.methodRefs signature (Mentions descriptor.toList) name ∨
      ∃ e ∈ exceptions, e.toList = name
  | .annotated a => a.Names
  | .catchBlock b => fun name => b.type.toList = name
  | .instruction i => i.operand.Names
  | .localVariable v => v.Names
  | _ => fun _ => False

/-- An event has a generic type that cannot be read. -/
def Event.Unreadable : Event → Prop
  | .classDeclared _ _ _ signature _ _ => Signature.Unreadable Signature.classRefs signature
  | .fieldDeclared _ _ _ signature => Signature.Unreadable Signature.fieldRefs signature
  | .methodDeclared _ _ _ signature _ => Signature.Unreadable Signature.methodRefs signature
  | .localVariable v => Signature.Unreadable Signature.fieldRefs v.signature
  | _ => False

namespace ClassImports

theorem collects_step (e : Event) : Collects e.Unreadable e.Names (step · e) := by
  cases e with
  | classDeclared _ _ _ signature superName interfaces =>
    exact collects_signature Signature.parseClass _ signature (adds_names (superName :: interfaces))
  | fieldDeclared _ _ descriptor signature =>
    exact collects_signature Signature.parseField _ signature (adds_descriptor descriptor.toList)
  | methodDeclared access name descriptor signature exceptions =>
    have htypes := collects_signature Signature.parseMethod Signature.OfMethod.refs signature
      (adds_descriptor descriptor.toList)
    -- The exceptions are added behind either branch.
    have hstep (found : List String) : step found (.methodDeclared access name descriptor signature
        exceptions) = (if signature = "" then .ok (addDescriptor found descriptor.toList)
          else Signature.parseMethod signature >>= fun type => .ok (addRefs found type.refs)) >>=
            fun found => .ok (addNames found exceptions) := by
      unfold step
      by_cases hnone : signature = ""
      · simp only [if_pos hnone]
        rfl
      · simp only [if_neg hnone, bind_assoc]
        rfl
    simp only [hstep]
    exact htypes.map (adds_names exceptions)
  | annotated a =>
    exact (adds_foldl fun (d : String) _ => adds_descriptor d.toList).collects
  | instruction i =>
    have hmember := (adds_name i.operand.owner).comp (adds_descriptor i.operand.descriptor.toList)
    exact ((adds_name i.operand.typeName).comp hmember).collects
  | catchBlock b => exact (adds_name b.type).collects
  | localVariable v => exact collects_signature Signature.parseField _ v.signature adds_nothing
  | _ => exact adds_nothing.collects

theorem collects_walk (es : List Event) :
    Collects (∃ e ∈ es, e.Unreadable) (fun name => ∃ e ∈ es, e.Names name) fun found =>
      es.foldlM step found := by
  induction es with
  | nil =>
    simp only [List.not_mem_nil, false_and, exists_false]
    exact adds_nothing.collects
  | cons e es ih =>
    simp only [List.mem_cons, or_and_right, exists_or, exists_eq_left, List.foldlM_cons]
    exact (collects_step e).bind ih

/-! ### Parts of a class -/

theorem names_iff (c : ClassFile) (name : List Char) :
    (∃ e ∈ c.events, e.Names name) ↔ c.Names name := by
  have hparts : Event.IsOfParts (·.Names name) := ⟨fun _ => id, fun _ => id, id, id⟩
  simp only [ClassFile.exists_event_iff hparts, Field.exists_event_iff,
    Method.exists_event_iff hparts, Code.exists_event_iff hparts]
  exact Iff.rfl

theorem unreadable_iff (c : ClassFile) :
    (∃ e ∈ c.events, e.Unreadable) ↔ c.Unreadable := by
  have hparts : Event.IsOfParts Event.Unreadable := ⟨fun _ => id, fun _ => id, id, id⟩
  rw [ClassFile.exists_event_iff hparts]
  simp only [Field.exists_event_iff, Method.exists_event_iff hparts, Code.exists_event_iff hparts]
  -- Annotations, instructions and catch blocks have no generic types.
  simp only [Event.Unreadable, and_false, exists_false, or_false, false_or]
  exact Iff.rfl

/-- **Imported packages.** The packages of a class are found unless one of its generic types cannot
    be read. They are the packages of the classes that the class names, in its supertypes, members,
    annotations and code. -/
theorem ofClass_exact (c : ClassFile) :
    ((∃ e, ofClass c = .error e) ↔ c.Unreadable) ∧
      (¬ c.Unreadable → ∃ found, ofClass c = .ok found ∧
        ∀ p, p ∈ found.imports.toList ↔ ∃ name, c.Names name ∧ HasPackage name p) := by
  -- The walk starts with no packages, so that all that are found come from the class.
  have hwalk := collects_walk c.events
  simp only [names_iff, unreadable_iff] at hwalk
  unfold ofClass
  rcases hwalk with ⟨hbad, herror⟩ | ⟨hgood, add, hwalk, hadd⟩
  · obtain ⟨e, he⟩ : ∃ e, c.events.foldlM step [] = .error e := herror []
    rw [he]
    exact ⟨⟨fun _ => hbad, fun _ => ⟨⟨c.name, e⟩, rfl⟩⟩, fun hgood => absurd hbad hgood⟩
  · have hrun : c.events.foldlM step [] = .ok (add []) := congrFun hwalk []
    rw [hrun]
    refine ⟨⟨(fun ⟨_, h⟩ => nomatch h), fun hbad => absurd hbad hgood⟩, fun _ => ⟨_, rfl, ?_⟩⟩
    intro p
    rw [SortedSet.mem_ofList, hadd [] p]
    simp only [List.not_mem_nil, false_or]

end ClassImports

end ClassAudit
