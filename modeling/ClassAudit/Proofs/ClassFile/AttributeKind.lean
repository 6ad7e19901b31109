import Mathlib.Data.List.Forall2
import ClassAudit.ClassFile.Basic

/-! # Kinds of attributes

    The attributes that a class, a field, a method or a code array takes in fall into kinds, and
    each kind has its own part of what the table shows. Taking in an attribute changes the part of
    its kind, by what this part has been, and no other part: the kinds are `Independent`. So a run
    over a table is a run over the attributes of each kind, and tables that hold the same attributes
    of each kind in the same order show the same, however the kinds are mixed and whatever else
    there is.
-/

namespace ClassAudit.Attribute

/-! ### Independent kinds -/

section

variable {α σ κ : Type} {Part : κ → Type}

/-- What taking in something of a kind, or of none, may do: without a kind nothing changes, and with
    a kind only the part of this kind counts and changes. -/
def ActsOn (part : (k : κ) → σ → Part k) (f : σ → Option σ) : Option κ → Prop
  | none => ∀ s, f s = some s
  | some k =>
    (∀ j, j ≠ k → ∀ s s', f s = some s' → part j s = part j s') ∧
      ∀ s t s', part k s = part k t → f s = some s' → ∃ t', f t = some t' ∧ part k s' = part k t'

/-- A state is nothing but its parts, and each step acts on the part of its kind. -/
structure Independent (kind? : α → Option κ) (part : (k : κ) → σ → Part k)
    (step : σ → α → Option σ) : Prop where
  ext : ∀ s t, (∀ k, part k s = part k t) → s = t
  acts : ∀ a, ActsOn part (step · a) (kind? a)

/-- The members of a list of one kind. -/
def ofKind [DecidableEq κ] (kind? : α → Option κ) (k : κ) (as : List α) : List α :=
  as.filter fun a => kind? a = some k

section

variable [DecidableEq κ] {kind? : α → Option κ} {k : κ}

theorem ofKind_cons_of_eq {a : α} (h : kind? a = some k) (as : List α) :
    ofKind kind? k (a :: as) = a :: ofKind kind? k as :=
  List.filter_cons_of_pos (decide_eq_true h)

theorem ofKind_cons_of_ne {a : α} (h : kind? a ≠ some k) (as : List α) :
    ofKind kind? k (a :: as) = ofKind kind? k as :=
  List.filter_cons_of_neg (mt of_decide_eq_true h)

theorem ofKind_append (as bs : List α) :
    ofKind kind? k (as ++ bs) = ofKind kind? k as ++ ofKind kind? k bs :=
  List.filter_append as bs

theorem ofKind_swap {a b : α} (h : kind? a ≠ kind? b) (as : List α) :
    ofKind kind? k (a :: b :: as) = ofKind kind? k (b :: a :: as) := by
  by_cases ha : kind? a = some k
  · have hb : kind? b ≠ some k := fun hb => h (ha.trans hb.symm)
    rw [ofKind_cons_of_eq ha, ofKind_cons_of_ne hb, ofKind_cons_of_ne hb, ofKind_cons_of_eq ha]
  · rw [ofKind_cons_of_ne ha]
    by_cases hb : kind? b = some k
    · rw [ofKind_cons_of_eq hb, ofKind_cons_of_eq hb, ofKind_cons_of_ne ha]
    · rw [ofKind_cons_of_ne hb, ofKind_cons_of_ne hb, ofKind_cons_of_ne ha]

theorem ofKind_ofKind (as : List α) : ofKind kind? k (ofKind kind? k as) = ofKind kind? k as := by
  unfold ofKind
  rw [List.filter_filter]
  simp only [Bool.and_self]

end

namespace Independent

variable {kind? : α → Option κ} {part : (k : κ) → σ → Part k} {step : σ → α → Option σ}

/-- A step that is not of a kind keeps the part of this kind. -/
theorem keep (h : Independent kind? part step) {a : α} {k : κ} {s s' : σ} (hkind : kind? a ≠ some k)
    (hstep : step s a = some s') : part k s = part k s' := by
  have hacts := h.acts a
  cases hnone : kind? a with
  | none =>
    rw [hnone] at hacts
    obtain rfl := Option.some.inj ((hacts s).symm.trans hstep)
    rfl
  | some j =>
    rw [hnone] at hacts hkind
    exact hacts.1 k (fun hkj => hkind (congrArg some hkj.symm)) s s' hstep

theorem follow (h : Independent kind? part step) {a : α} {k : κ} {s s' t : σ}
    (hkind : kind? a = some k) (hpart : part k s = part k t) (hstep : step s a = some s') :
    ∃ t', step t a = some t' ∧ part k s' = part k t' := by
  have hacts := h.acts a
  rw [hkind] at hacts
  exact hacts.2 s t s' hpart hstep

variable [DecidableEq κ]

/-- A run that succeeds gives the part of a kind that the run over this kind gives. -/
theorem run_ofKind (h : Independent kind? part step) (k : κ) {as : List α} {s s' t : σ}
    (hrun : as.foldlM step s = some s') (hpart : part k s = part k t) :
    ∃ t', (ofKind kind? k as).foldlM step t = some t' ∧ part k s' = part k t' := by
  induction as generalizing s t with
  | nil =>
    obtain rfl := Option.some.inj hrun
    exact ⟨t, rfl, hpart⟩
  | cons a as ih =>
    rw [List.foldlM_cons, Option.bind_eq_bind, Option.bind_eq_some_iff] at hrun
    obtain ⟨s₁, hstep, hrest⟩ := hrun
    by_cases hkind : kind? a = some k
    · obtain ⟨t₁, hstep', hpart'⟩ := h.follow hkind hpart hstep
      obtain ⟨t', hrun', hend⟩ := ih hrest hpart'
      refine ⟨t', ?_, hend⟩
      rw [ofKind_cons_of_eq hkind, List.foldlM_cons, hstep']
      exact hrun'
    · rw [ofKind_cons_of_ne hkind]
      exact ih hrest ((h.keep hkind hstep).symm.trans hpart)

/-- If the run over each kind succeeds, so does the run over all. -/
theorem run_succeeds (h : Independent kind? part step) {as : List α} {s : σ}
    (hkinds : ∀ k, ∃ t, (ofKind kind? k as).foldlM step s = some t) :
    ∃ s', as.foldlM step s = some s' := by
  induction as generalizing s with
  | nil => exact ⟨s, rfl⟩
  | cons a as ih =>
    -- The first step succeeds: as the first one of its kind, or because it has none.
    have hfirst : ∃ s₁, step s a = some s₁ ∧
        ∀ k, kind? a = some k → ∃ t, (ofKind kind? k as).foldlM step s₁ = some t := by
      cases hkind : kind? a with
      | none =>
        have hacts := h.acts a
        rw [hkind] at hacts
        exact ⟨s, hacts s, fun k hk => nomatch hk⟩
      | some j =>
        obtain ⟨t, ht⟩ := hkinds j
        rw [ofKind_cons_of_eq hkind, List.foldlM_cons, Option.bind_eq_bind,
          Option.bind_eq_some_iff] at ht
        obtain ⟨s₁, hstep, hrest⟩ := ht
        exact ⟨s₁, hstep, fun k hk => ⟨t, Option.some.inj hk ▸ hrest⟩⟩
    obtain ⟨s₁, hstep, hsame⟩ := hfirst
    rw [List.foldlM_cons, hstep]
    refine ih fun k => ?_
    by_cases hkind : kind? a = some k
    · exact hsame k hkind
    · -- The other kinds run on from a state with the part that they had before.
      obtain ⟨t, ht⟩ := hkinds k
      rw [ofKind_cons_of_ne hkind] at ht
      obtain ⟨t', ht', -⟩ := h.run_ofKind k ht (h.keep hkind hstep)
      rw [ofKind_ofKind] at ht'
      exact ⟨t', ht'⟩

theorem run_eq_some (h : Independent kind? part step) {as bs : List α} {s s' : σ}
    (hkinds : ∀ k, (ofKind kind? k as).foldlM step s = (ofKind kind? k bs).foldlM step s)
    (hrun : as.foldlM step s = some s') : bs.foldlM step s = some s' := by
  have hparts (k : κ) := h.run_ofKind k hrun (rfl : part k s = part k s)
  have hall : ∀ k, ∃ t, (ofKind kind? k bs).foldlM step s = some t := by
    intro k
    obtain ⟨u, hu, -⟩ := hparts k
    exact ⟨u, hkinds k ▸ hu⟩
  obtain ⟨t, ht⟩ := h.run_succeeds hall
  -- Both ends have the part of each kind to which the run over this kind leads.
  rw [ht, h.ext t s' fun k => ?_]
  obtain ⟨u, hu, hend⟩ := hparts k
  obtain ⟨u', hu', hend'⟩ := h.run_ofKind k ht (rfl : part k s = part k s)
  rw [← hkinds k, hu] at hu'
  obtain rfl := Option.some.inj hu'
  rw [hend, hend']

/-- Lists that lead to the same kind by kind lead to the same. -/
theorem run_eq (h : Independent kind? part step) {as bs : List α} {s : σ}
    (hkinds : ∀ k, (ofKind kind? k as).foldlM step s = (ofKind kind? k bs).foldlM step s) :
    as.foldlM step s = bs.foldlM step s :=
  Option.ext fun _ => ⟨h.run_eq_some hkinds, h.run_eq_some fun k => (hkinds k).symm⟩

end Independent

end

/-! ### The kinds of a class file -/

/-- A kind of attributes. Those of a kind are taken in together, in the order of the table. -/
inductive Kind where
  | sourceFile
  | signature
  /-- Annotations, whether or not they are kept for the running program. -/
  | annotations
  | code
  | exceptions
  | defaultValue
  | parameterAnnotations
  | lines
  | locals
  | localTypes
  deriving DecidableEq

namespace Kind

/-- The kind of an attribute by its name. -/
def ofName? : String → Option Kind
  | "SourceFile" => some sourceFile
  | "Signature" => some signature
  | "RuntimeVisibleAnnotations" => some annotations
  | "RuntimeInvisibleAnnotations" => some annotations
  | "Code" => some code
  | "Exceptions" => some exceptions
  | "AnnotationDefault" => some defaultValue
  | "RuntimeVisibleParameterAnnotations" => some parameterAnnotations
  | "RuntimeInvisibleParameterAnnotations" => some parameterAnnotations
  | "LineNumberTable" => some lines
  | "LocalVariableTable" => some locals
  | "LocalVariableTypeTable" => some localTypes
  | _ => none

/-- What attributes of a kind show. -/
def Part : Kind → Type
  | sourceFile | signature => String
  | annotations | defaultValue | parameterAnnotations => List AnnotationInfo
  | code => Option ClassAudit.Code
  | exceptions => List String
  | lines => List LineEntry
  | locals | localTypes => List LocalRow

/-- What is shown of a kind that does not count. -/
def nothing : (k : Kind) → k.Part
  | sourceFile | signature => ""
  | annotations | defaultValue | parameterAnnotations | exceptions | lines | locals
  | localTypes => []
  | code => none

end Kind

/-- What a table of attributes belongs to. -/
inductive Context where
  | ofClass
  | ofField
  | ofMethod
  | ofCode

namespace Context

/-- The kinds that count in a table. -/
def kinds : Context → List Kind
  | ofClass => [.sourceFile, .signature, .annotations]
  | ofField => [.signature, .annotations]
  | ofMethod =>
    [.code, .signature, .exceptions, .defaultValue, .annotations, .parameterAnnotations]
  | ofCode => [.lines, .locals, .localTypes]

/-- The kind of an attribute, given by its name and its body, if it counts in the table. -/
def kind? (c : Context) (a : String × List UInt8) : Option Kind :=
  (Kind.ofName? a.1).filter (· ∈ c.kinds)

/-- What a table shows. -/
def Seen : Context → Type
  | ofClass => ClassFile.Attributes
  | ofField => Field.Attributes
  | ofMethod => Method.Attributes
  | ofCode => Code.Attributes

def add : (c : Context) → ConstantPool → c.Seen → String → List UInt8 → Except Malformed c.Seen
  | ofClass => ClassFile.Attributes.add
  | ofField => Field.Attributes.add
  | ofMethod => Method.Attributes.add
  | ofCode => Code.Attributes.add

def part : (c : Context) → (k : Kind) → c.Seen → k.Part
  | ofClass, .sourceFile => ClassFile.Attributes.sourceFile
  | ofClass, .signature => ClassFile.Attributes.signature
  | ofClass, .annotations => ClassFile.Attributes.annotations
  | ofField, .signature => Field.Attributes.signature
  | ofField, .annotations => Field.Attributes.annotations
  | ofMethod, .code => Method.Attributes.code
  | ofMethod, .signature => Method.Attributes.signature
  | ofMethod, .exceptions => Method.Attributes.exceptions
  | ofMethod, .defaultValue => Method.Attributes.defaults
  | ofMethod, .annotations => Method.Attributes.annotations
  | ofMethod, .parameterAnnotations => Method.Attributes.parameterAnnotations
  | ofCode, .lines => Code.Attributes.lines
  | ofCode, .locals => Code.Attributes.locals
  | ofCode, .localTypes => Code.Attributes.localTypes
  | _, k => fun _ => k.nothing

/-- A table that shows something else of a kind. -/
def set : (c : Context) → (k : Kind) → c.Seen → k.Part → c.Seen
  | ofClass, .sourceFile => fun (s : ClassFile.Attributes) x => { s with sourceFile := x }
  | ofClass, .signature => fun (s : ClassFile.Attributes) x => { s with signature := x }
  | ofClass, .annotations => fun (s : ClassFile.Attributes) x => { s with annotations := x }
  | ofField, .signature => fun (s : Field.Attributes) x => { s with signature := x }
  | ofField, .annotations => fun (s : Field.Attributes) x => { s with annotations := x }
  | ofMethod, .code => fun (s : Method.Attributes) x => { s with code := x }
  | ofMethod, .signature => fun (s : Method.Attributes) x => { s with signature := x }
  | ofMethod, .exceptions => fun (s : Method.Attributes) x => { s with exceptions := x }
  | ofMethod, .defaultValue => fun (s : Method.Attributes) x => { s with defaults := x }
  | ofMethod, .annotations => fun (s : Method.Attributes) x => { s with annotations := x }
  | ofMethod, .parameterAnnotations =>
    fun (s : Method.Attributes) x => { s with parameterAnnotations := x }
  | ofCode, .lines => fun (s : Code.Attributes) x => { s with lines := x }
  | ofCode, .locals => fun (s : Code.Attributes) x => { s with locals := x }
  | ofCode, .localTypes => fun (s : Code.Attributes) x => { s with localTypes := x }
  | _, _ => fun s _ => s

theorem part_set_of_ne (c : Context) {j k : Kind} (h : j ≠ k) (s : c.Seen) (x : k.Part) :
    c.part j (c.set k s x) = c.part j s := by
  cases c <;> cases k <;> cases j <;> trivial

theorem part_set_self (c : Context) {k : Kind} (h : k ∈ c.kinds) (s : c.Seen) (x : k.Part) :
    c.part k (c.set k s x) = x := by
  cases c <;> cases k <;> trivial

/-- What a table shows is nothing but its parts. -/
theorem ext (c : Context) (s t : c.Seen) (h : ∀ k, c.part k s = c.part k t) : s = t := by
  cases c with
  | ofClass =>
    exact (ClassFile.Attributes.mk.injEq ..).mpr ⟨h .sourceFile, h .signature, h .annotations⟩
  | ofField => exact (Field.Attributes.mk.injEq ..).mpr ⟨h .signature, h .annotations⟩
  | ofMethod =>
    exact (Method.Attributes.mk.injEq ..).mpr ⟨h .code, h .signature, h .exceptions,
      h .defaultValue, h .annotations, h .parameterAnnotations⟩
  | ofCode => exact (Code.Attributes.mk.injEq ..).mpr ⟨h .lines, h .locals, h .localTypes⟩

/-- Reading something and making it a part of a kind, by what the part has been. -/
theorem actsOn_set (c : Context) {ρ : Type} {a : String × List UInt8} (k : Kind)
    (ha : c.kind? a = some k) (read : Except Malformed ρ) (f : k.Part → ρ → k.Part) :
    ActsOn c.part (fun s => (read >>= fun x => pure (c.set k s (f (c.part k s) x))).toOption)
      (c.kind? a) := by
  have hmem : k ∈ c.kinds := by
    obtain ⟨-, hmem⟩ := Option.filter_eq_some_iff.mp ha
    exact of_decide_eq_true hmem
  rw [ha]
  cases read with
  | error e => exact ⟨fun _ _ _ _ h => (nomatch h), fun _ _ _ _ h => nomatch h⟩
  | ok x =>
    refine ⟨fun j hj s s' h => ?_, fun s t s' hpart h => ⟨_, rfl, ?_⟩⟩
    · obtain rfl := Option.some.inj h
      exact (c.part_set_of_ne hj s _).symm
    · obtain rfl := Option.some.inj h
      rw [c.part_set_self hmem, c.part_set_self hmem, hpart]

theorem actsOn_skip (c : Context) {a : String × List UInt8} (ha : c.kind? a = none) :
    ActsOn c.part some (c.kind? a) := by
  rw [ha]
  exact fun _ => rfl

/-- Taking in an attribute acts on the part of its kind. -/
theorem actsOn_add (c : Context) (pool : ConstantPool) (name : String) (body : List UInt8) :
    ActsOn c.part (fun s => (c.add pool s name body).toOption) (c.kind? (name, body)) := by
  -- One case for each name that is taken in, and one for all others.
  cases c with
  | ofClass =>
    show ActsOn ofClass.part (fun s => (ClassFile.Attributes.add pool s name body).toOption) _
    unfold ClassFile.Attributes.add
    split
    · exact ofClass.actsOn_set .sourceFile rfl _ fun _ text => text
    · exact ofClass.actsOn_set .signature rfl _ fun _ text => text
    · exact ofClass.actsOn_set .annotations rfl _ List.append
    · exact ofClass.actsOn_set .annotations rfl _ List.append
    · refine ofClass.actsOn_skip ?_
      unfold kind? Kind.ofName?
      split <;> trivial
  | ofField =>
    show ActsOn ofField.part (fun s => (Field.Attributes.add pool s name body).toOption) _
    unfold Field.Attributes.add
    split
    · exact ofField.actsOn_set .signature rfl _ fun _ text => text
    · exact ofField.actsOn_set .annotations rfl _ List.append
    · exact ofField.actsOn_set .annotations rfl _ List.append
    · refine ofField.actsOn_skip ?_
      unfold kind? Kind.ofName?
      split <;> trivial
  | ofMethod =>
    show ActsOn ofMethod.part (fun s => (Method.Attributes.add pool s name body).toOption) _
    unfold Method.Attributes.add
    split
    · exact ofMethod.actsOn_set .code rfl _ fun _ code => some code
    · exact ofMethod.actsOn_set .signature rfl _ fun _ text => text
    · exact ofMethod.actsOn_set .exceptions rfl _ fun _ names => names
    · exact ofMethod.actsOn_set .defaultValue rfl _ fun seen value => List.append seen [value]
    · exact ofMethod.actsOn_set .annotations rfl _ List.append
    · exact ofMethod.actsOn_set .annotations rfl _ List.append
    · exact ofMethod.actsOn_set .parameterAnnotations rfl _ List.append
    · exact ofMethod.actsOn_set .parameterAnnotations rfl _ List.append
    · refine ofMethod.actsOn_skip ?_
      unfold kind? Kind.ofName?
      split <;> trivial
  | ofCode =>
    show ActsOn ofCode.part (fun s => (Code.Attributes.add pool s name body).toOption) _
    unfold Code.Attributes.add
    split
    · exact ofCode.actsOn_set .lines rfl _ List.append
    · exact ofCode.actsOn_set .locals rfl _ List.append
    · exact ofCode.actsOn_set .localTypes rfl _ List.append
    · refine ofCode.actsOn_skip ?_
      unfold kind? Kind.ofName?
      split <;> trivial

theorem independent (c : Context) (pool : ConstantPool) :
    Independent c.kind? c.part (fun s a => (c.add pool s a.1 a.2).toOption) :=
  ⟨c.ext, fun a => c.actsOn_add pool a.1 a.2⟩

/-! ### Tables that hold the same of each kind -/

/-- Two lists of attributes hold the same attributes of each kind that counts, in the same order. -/
def SameKinds (c : Context) (attrs attrs' : List (String × List UInt8)) : Prop :=
  ∀ k ∈ c.kinds, ofKind c.kind? k attrs = ofKind c.kind? k attrs'

instance (c : Context) (attrs attrs' : List (String × List UInt8)) :
    Decidable (c.SameKinds attrs attrs') :=
  inferInstanceAs (Decidable (∀ k ∈ c.kinds, _))

/-- No attribute is of a kind that does not count. -/
theorem ofKind_eq_nil (c : Context) {k : Kind} (h : k ∉ c.kinds)
    (attrs : List (String × List UInt8)) : ofKind c.kind? k attrs = [] := by
  refine List.filter_eq_nil_iff.mpr fun a _ hkind => h ?_
  exact of_decide_eq_true (Option.filter_eq_some_iff.mp (of_decide_eq_true hkind)).2

theorem sameKinds_insert (c : Context) {a : String × List UInt8} (h : c.kind? a = none)
    (before after : List (String × List UInt8)) :
    c.SameKinds (before ++ after) (before ++ a :: after) := by
  intro k _
  rw [ofKind_append, ofKind_append]
  exact congrArg _ (ofKind_cons_of_ne (by simp [h]) after).symm

theorem sameKinds_swap (c : Context) {a b : String × List UInt8} (h : c.kind? a ≠ c.kind? b)
    (before after : List (String × List UInt8)) :
    c.SameKinds (before ++ a :: b :: after) (before ++ b :: a :: after) := by
  intro k _
  rw [ofKind_append, ofKind_append]
  exact congrArg _ (ofKind_swap h after)

end Context

end ClassAudit.Attribute
