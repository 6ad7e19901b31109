import ClassAudit.Proofs.ClassFile.Alike
import ClassAudit.Proofs.ClassFile.AttributeKind
import ClassAudit.Proofs.ClassFile.Prefix

/-! # What attribute tables mean

    Tables that hold the same attributes of each kind are alike for the readers of classes, fields,
    methods and code. Whole class files are variants of each other if they differ in nothing but
    such tables, those inside the code of methods included, and then they are read with the same
    result. An attribute of an unknown name may therefore stand anywhere, and attributes of
    different kinds in any order.
-/

namespace ClassAudit

open Reader (Reads Yields Alike)

namespace Attribute

/-! ### Tables -/

variable {pool : ConstantPool}

/-- The bytes of attributes: for each of them the slot of its name, the length of its body, and the
    body. -/
inductive Rows (pool : ConstantPool) : List (String × List UInt8) → List UInt8 → Prop where
  | nil : Rows pool [] []
  | cons {name : String} {slot : Nat} {body rows : List UInt8}
      {attrs : List (String × List UInt8)} :
      slot < 65536 → pool.utf8 slot = .ok name → body.length < 4294967296 → Rows pool attrs rows →
      Rows pool ((name, body) :: attrs)
        (Assembly.u2 slot ++ (Assembly.u4 body.length ++ (body ++ rows)))

/-- A table holds attributes: it is framed as it should be, and all names are texts of the pool. -/
def IsTable (pool : ConstantPool) (attrs : List (String × List UInt8)) (table : List UInt8) :
    Prop :=
  attrs.length < 65536 ∧ ∃ rows, Rows pool attrs rows ∧ table = Assembly.u2 attrs.length ++ rows

theorem toOption_locate {α : Type} (part : FilePart) (e : Except Malformed α) :
    (part.locate e).toOption = e.toOption := by
  cases e with
  | error e => rfl
  | ok a => rfl

/-- A table is read by taking in its attributes one by one. -/
theorem yields_go {σ : Type} (add : σ → String → List UInt8 → Except Malformed σ)
    {attrs : List (String × List UInt8)} {rows : List UInt8} (h : Rows pool attrs rows) (seen : σ) :
    Yields (foldTable.go pool add attrs.length seen) rows
      (attrs.foldlM (fun s a => (add s a.1 a.2).toOption) seen) := by
  induction h generalizing seen with
  | nil => exact Yields.pure seen
  | @cons name slot body rows attrs hslot hname hbody _ ih =>
    refine (Yields.u2 hslot).bind_some ((Yields.u4 hbody).bind_some ?_)
    refine (Yields.bytes_length body).bind_some ?_
    have hlook : Yields (liftM (FilePart.attributeName.locate (pool.utf8 slot)) : Reader String) []
        (some name) := by
      rw [hname]
      exact Yields.pure name
    refine hlook.bind_some ?_
    have hadd := Yields.lift ((FilePart.attributeBody name).locate (add seen name body))
    rw [toOption_locate] at hadd
    rw [List.foldlM_cons]
    exact hadd.bind ih

theorem yields_foldTable {σ : Type} (add : σ → String → List UInt8 → Except Malformed σ)
    {attrs : List (String × List UInt8)} {table : List UInt8} (h : IsTable pool attrs table)
    (seen : σ) :
    Yields (foldTable pool add seen) table
      (attrs.foldlM (fun s a => (add s a.1 a.2).toOption) seen) := by
  obtain ⟨hcount, rows, hrows, rfl⟩ := h
  exact (Yields.u2 hcount).bind_some (yields_go add hrows seen)

namespace Context

/-- The reader of a table, given what has been shown before. -/
def read (c : Context) (pool : ConstantPool) (seen : c.Seen) : Reader c.Seen :=
  foldTable pool (c.add pool) seen

/-- Two tables hold the same attributes of each kind that counts. -/
def SameTables (c : Context) (pool : ConstantPool) (table table' : List UInt8) : Prop :=
  ∃ attrs attrs', IsTable pool attrs table ∧ IsTable pool attrs' table' ∧ c.SameKinds attrs attrs'

/-- Tables are alike if they lead to the same kind by kind. -/
theorem alike_of_kinds (c : Context) {attrs attrs' : List (String × List UInt8)}
    {table table' : List UInt8} (h : IsTable pool attrs table) (h' : IsTable pool attrs' table')
    (seen : c.Seen)
    (hkinds : ∀ k ∈ c.kinds,
      (ofKind c.kind? k attrs).foldlM (fun s a => (c.add pool s a.1 a.2).toOption) seen =
        (ofKind c.kind? k attrs').foldlM (fun s a => (c.add pool s a.1 a.2).toOption) seen) :
    Alike (c.read pool seen) table table' := by
  refine ⟨_, yields_foldTable (c.add pool) h seen, ?_⟩
  rw [(c.independent pool).run_eq fun k => ?_]
  · exact yields_foldTable (c.add pool) h' seen
  · by_cases hk : k ∈ c.kinds
    · exact hkinds k hk
    · -- No attribute is of a kind that does not count.
      rw [c.ofKind_eq_nil hk, c.ofKind_eq_nil hk]

theorem alike_of_sameTables (c : Context) {table table' : List UInt8}
    (h : c.SameTables pool table table') (seen : c.Seen) :
    Alike (c.read pool seen) table table' := by
  obtain ⟨attrs, attrs', htable, htable', hkinds⟩ := h
  exact c.alike_of_kinds htable htable' seen fun k hk => by rw [hkinds k hk]

end Context

end Attribute

open Attribute (Context IsTable Rows ofKind)

/-! ### Fields, code and methods that are alike -/

section

variable (pool : ConstantPool)

/-- Two fields with the same header, and with tables that hold the same attributes of each kind. -/
inductive Field.Variant : List UInt8 → List UInt8 → Prop where
  | mk {header table table' : List UInt8} :
      header.length = 6 → Context.ofField.SameTables pool table table' →
      Variant (header ++ table) (header ++ table')

/-- Two bodies of code that are the same, or that have tables which hold the same attributes of each
    kind and are the same otherwise. -/
inductive Code.Variant : List UInt8 → List UInt8 → Prop where
  | refl (body : List UInt8) : Variant body body
  | tables {limits bytecode table table' rest : List UInt8} {catches : List (List UInt8)} :
      limits.length = 4 → bytecode.length < 4294967296 → catches.length < 65536 →
      (∀ row ∈ catches, row.length = 8) → Context.ofCode.SameTables pool table table' →
      Variant
        (limits ++ (Assembly.u4 bytecode.length ++ (bytecode ++
          (Assembly.u2 catches.length ++ catches.flatten ++ table))) ++ rest)
        (limits ++ (Assembly.u4 bytecode.length ++ (bytecode ++
          (Assembly.u2 catches.length ++ catches.flatten ++ table'))) ++ rest)

/-- Two methods with the same header, and with tables that hold the same attributes of each kind, up
    to variants of code. -/
inductive Method.Variant : List UInt8 → List UInt8 → Prop where
  | mk {header table table' : List UInt8} {attrs attrs' : List (String × List UInt8)} :
      header.length = 6 → IsTable pool attrs table → IsTable pool attrs' table' →
      (∀ k ∈ Context.ofMethod.kinds, k ≠ .code →
        ofKind Context.ofMethod.kind? k attrs = ofKind Context.ofMethod.kind? k attrs') →
      List.Forall₂ (Code.Variant pool)
        ((ofKind Context.ofMethod.kind? .code attrs).map Prod.snd)
        ((ofKind Context.ofMethod.kind? .code attrs').map Prod.snd) →
      Variant (header ++ table) (header ++ table')

end

variable {pool : ConstantPool}

/-- The header of a member takes six bytes. -/
theorem MemberHeader.yields_read (pool : ConstantPool) {header : List UInt8}
    (h : header.length = 6) :
    ∃ result, Yields (MemberHeader.read pool) header result := by
  match header, h with
  | [a₁, a₀, n₁, n₀, d₁, d₀], _ =>
    obtain ⟨access, haccess⟩ := Yields.u2_of_length (rfl : [a₁, a₀].length = 2)
    obtain ⟨name, hname⟩ := Yields.u2_of_length (rfl : [n₁, n₀].length = 2)
    obtain ⟨descriptor, hdescriptor⟩ := Yields.u2_of_length (rfl : [d₁, d₀].length = 2)
    have hlook (access : Nat) := (Yields.lift (pool.utf8 name)).bind fun name =>
      (Yields.lift (pool.utf8 descriptor)).bind fun descriptor =>
        Yields.pure (MemberHeader.mk access name descriptor)
    exact ⟨_, haccess.bind_some (hname.bind_some (hdescriptor.bind_some (hlook access)))⟩

theorem Field.Variant.alike {bytes bytes' : List UInt8} (h : Field.Variant pool bytes bytes') :
    Alike (Field.read pool) bytes bytes' := by
  obtain ⟨hheader, htables⟩ := h
  obtain ⟨_, hheader⟩ := MemberHeader.yields_read pool hheader
  refine ((Alike.of_yields hheader).inside _).bind fun header => ?_
  exact ((Context.ofField.alike_of_sameTables htables ⟨"", []⟩).inside _).map _

theorem Code.yields_readCatch (pool : ConstantPool) {row : List UInt8} (h : row.length = 8) :
    ∃ result, Yields (Code.readCatch pool) row result := by
  match row, h with
  | [s₁, s₀, e₁, e₀, h₁, h₀, t₁, t₀], _ =>
    obtain ⟨start, hstart⟩ := Yields.u2_of_length (rfl : [s₁, s₀].length = 2)
    obtain ⟨stop, hstop⟩ := Yields.u2_of_length (rfl : [e₁, e₀].length = 2)
    obtain ⟨handler, hhandler⟩ := Yields.u2_of_length (rfl : [h₁, h₀].length = 2)
    obtain ⟨type, htype⟩ := Yields.u2_of_length (rfl : [t₁, t₀].length = 2)
    have hlook := (Yields.lift (FilePart.exceptionTable.locate (pool.optionalClassName type))).bind
      fun type => Yields.pure (CatchBlock.mk start stop handler type)
    exact ⟨_, hstart.bind_some (hstop.bind_some (hhandler.bind_some (htype.bind_some hlook)))⟩

theorem Code.Variant.on_eq {body body' : List UInt8} (h : Code.Variant pool body body') :
    ((Code.read pool).on body).toOption = ((Code.read pool).on body').toOption := by
  cases h with
  | refl => rfl
  | @tables limits bytecode table table' rest catches hlimits hbytecode hcount hcatches htables =>
    refine Alike.on ?_ rest rest
    have hskip : Yields (Reader.skip 4) limits (some ()) :=
      fun offset => Reads.skip_of_length offset hlimits
    have hrows : Alike (Reader.table (Code.readCatch pool))
        (Assembly.u2 catches.length ++ catches.flatten)
        (Assembly.u2 catches.length ++ catches.flatten) := by
      refine Alike.table (List.forall₂_same.mpr fun row hrow => ?_) hcount
      obtain ⟨_, hread⟩ := Code.yields_readCatch pool (hcatches row hrow)
      exact .of_yields hread
    refine Alike.after hskip (Alike.after (.u4 hbytecode) (Alike.after (.bytes_length bytecode) ?_))
    refine (Alike.of_yields (.lift (Instruction.readAll pool bytecode))).bind fun instructions => ?_
    refine hrows.bind fun catches => ?_
    exact (Context.ofCode.alike_of_sameTables htables ⟨[], [], []⟩).map _

theorem Code.Variant.add_eq {body body' : List UInt8} (h : Code.Variant pool body body')
    (seen : Method.Attributes) :
    (Method.Attributes.add pool seen "Code" body).toOption =
      (Method.Attributes.add pool seen "Code" body').toOption := by
  have htake (body : List UInt8) : (Method.Attributes.add pool seen "Code" body).toOption =
      ((Code.read pool).on body).toOption.map fun code => { seen with code := some code } := by
    show ((Code.read pool).on body >>= _).toOption = _
    cases (Code.read pool).on body with
    | error e => rfl
    | ok code => rfl
  rw [htake, htake, h.on_eq]

theorem Attribute.ofKind_code (attrs : List (String × List UInt8)) :
    ofKind Context.ofMethod.kind? .code attrs =
      ((ofKind Context.ofMethod.kind? .code attrs).map Prod.snd).map (Prod.mk "Code") := by
  rw [List.map_map]
  refine (List.map_id _).symm.trans (List.map_congr_left fun a ha => ?_)
  have hkind := of_decide_eq_true (List.mem_filter.mp ha).2
  have hofName := (Option.filter_eq_some_iff.mp hkind).1
  have hname : a.1 = "Code" := by
    unfold Attribute.Kind.ofName? at hofName
    split at hofName <;> trivial
  exact Prod.ext hname rfl

theorem Code.Variant.foldlM_eq {bodies bodies' : List (List UInt8)}
    (h : List.Forall₂ (Code.Variant pool) bodies bodies') (seen : Method.Attributes) :
    (bodies.map (Prod.mk "Code")).foldlM
        (fun s a => (Method.Attributes.add pool s a.1 a.2).toOption) seen =
      (bodies'.map (Prod.mk "Code")).foldlM
        (fun s a => (Method.Attributes.add pool s a.1 a.2).toOption) seen := by
  induction h generalizing seen with
  | nil => rfl
  | @cons body body' bodies bodies' hbody _ ih =>
    rw [List.map_cons, List.map_cons, List.foldlM_cons, List.foldlM_cons]
    show (Method.Attributes.add pool seen "Code" body).toOption >>= _ =
      (Method.Attributes.add pool seen "Code" body').toOption >>= _
    rw [hbody.add_eq]
    exact congrArg _ (funext ih)

theorem Method.Variant.alike {bytes bytes' : List UInt8} (h : Method.Variant pool bytes bytes') :
    Alike (Method.read pool) bytes bytes' := by
  cases h with
  | @mk header table table' attrs attrs' hheader htable htable' hkinds hcode =>
    obtain ⟨_, hheader⟩ := MemberHeader.yields_read pool hheader
    refine ((Alike.of_yields hheader).inside _).bind fun header => ?_
    refine Alike.map (Alike.inside _ (Context.ofMethod.alike_of_kinds htable htable'
      ⟨none, "", [], [], [], []⟩ fun k hk => ?_)) _
    by_cases hne : k = .code
    · subst hne
      rw [Attribute.ofKind_code attrs, Attribute.ofKind_code attrs']
      exact Code.Variant.foldlM_eq hcode _
    · rw [hkinds k hk hne]

/-! ### Class files that are alike -/

namespace ClassFile

/-- Two class files that start with the same head, and whose fields, methods and attribute tables
    are variants of each other. -/
inductive Variant : List UInt8 → List UInt8 → Prop where
  | mk {front table table' : List UInt8} {head : Head}
      {fields fields' methods methods' : List (List UInt8)} :
      Yields readHead front (some head) →
      fields.length < 65536 → List.Forall₂ (Field.Variant head.pool) fields fields' →
      methods.length < 65536 → List.Forall₂ (Method.Variant head.pool) methods methods' →
      Context.ofClass.SameTables head.pool table table' →
      Variant
        (front ++ (Assembly.u2 fields.length ++ fields.flatten ++
          (Assembly.u2 methods.length ++ methods.flatten ++ table)))
        (front ++ (Assembly.u2 fields'.length ++ fields'.flatten ++
          (Assembly.u2 methods'.length ++ methods'.flatten ++ table')))

theorem Variant.alike {data data' : List UInt8} (h : Variant data data') :
    Alike ClassFile.read data data' := by
  obtain ⟨hhead, hfieldCount, hfields, hmethodCount, hmethods, htables⟩ := h
  rw [read_eq]
  refine Alike.after hhead ?_
  have halike := Alike.table (hfields.imp fun _ _ => Field.Variant.alike) hfieldCount
  refine halike.bind fun fields => ?_
  refine (Alike.table (hmethods.imp fun _ _ => Method.Variant.alike) hmethodCount).bind
    fun methods => ?_
  exact (Context.ofClass.alike_of_sameTables htables ⟨"", "", []⟩).map _

/-- A byte string is accepted if the reader of class files takes all of it. -/
theorem toOption_parse {data : List UInt8} {result : Option ClassFile}
    (h : Yields ClassFile.read data result) : (parse data).toOption = result := by
  cases result with
  | some c =>
    have hparse := parse_append (h 0) []
    rw [List.append_nil] at hparse
    rw [hparse]
    rfl
  | none =>
    obtain ⟨e, he⟩ := h 0 []
    rw [List.append_nil] at he
    unfold parse Reader.on
    show (Except.map Prod.fst (ClassFile.read ⟨0, data⟩ >>= _)).toOption = _
    rw [he]
    rfl

/-- **Attributes count kind by kind.** Tables that hold the same attributes of each kind are read
    with the same result, or not at all. An attribute that no kind knows may stand anywhere, and
    neighbours of different kinds may change places. Class files that differ in nothing but such
    tables, at any depth, hold the same class, or none. -/
theorem attributes_count_by_kind :
    (∀ (c : Context) (pool : ConstantPool) (seen : c.Seen) (table table' : List UInt8),
      c.SameTables pool table table' → Alike (c.read pool seen) table table') ∧
    (∀ (c : Context) (before after : List (String × List UInt8)) (a : String × List UInt8),
      c.kind? a = none → c.SameKinds (before ++ after) (before ++ a :: after)) ∧
    (∀ (c : Context) (before after : List (String × List UInt8)) (a b : String × List UInt8),
      c.kind? a ≠ c.kind? b →
        c.SameKinds (before ++ a :: b :: after) (before ++ b :: a :: after)) ∧
    ∀ data data', Variant data data' → (parse data).toOption = (parse data').toOption := by
  refine ⟨fun c pool seen table table' h => c.alike_of_sameTables h seen,
    fun c before after a h => c.sameKinds_insert h before after,
    fun c before after a b h => c.sameKinds_swap h before after, fun data data' h => ?_⟩
  obtain ⟨result, hread, hread'⟩ := h.alike
  rw [toOption_parse hread, toOption_parse hread']

/-! ### A class with attributes in another order -/

/-- The front of a class `A`, with a pool that also holds the names of two attributes. -/
def sampleFront : List UInt8 :=
  [0xca, 0xfe, 0xba, 0xbe, 0, 0, 0, 52, 0, 5, 1, 0, 1, 65, 7, 0, 1, 1, 0, 9, 83, 105, 103, 110, 97,
    116, 117, 114, 101, 1, 0, 1, 88, 0, 0, 0, 2, 0, 0, 0, 0]

/-- What the front says. -/
def sampleHead : Head where
  minorVersion := 0
  majorVersion := 52
  pool := ⟨#[.unusable, .utf8 "A", .classInfo 1, .utf8 "Signature", .utf8 "X"]⟩
  access := 0
  name := "A"
  superName := ""
  interfaces := []

set_option maxRecDepth 4000 in
theorem yields_sampleFront : Yields readHead sampleFront (some sampleHead) := by
  have hread : readHead ⟨0, sampleFront⟩ = .ok (sampleHead, ⟨41, []⟩) := rfl
  obtain ⟨used, hused, hreads⟩ := local_readHead _ _ _ hread
  rw [List.append_nil] at hused
  change sampleFront = used at hused
  rw [hused]
  exact hreads

/-- A generic type, and an unknown attribute behind it. -/
def sampleTable : List UInt8 :=
  [0, 2, 0, 3, 0, 0, 0, 2, 0, 1, 0, 4, 0, 0, 0, 1, 7]

/-- The same generic type behind another unknown attribute. -/
def sampleTable' : List UInt8 :=
  [0, 2, 0, 4, 0, 0, 0, 0, 0, 3, 0, 0, 0, 2, 0, 1]

theorem sameTables_sample (c : Context) :
    c.SameTables sampleHead.pool sampleTable sampleTable' := by
  have hsignature {attrs : List (String × List UInt8)} {rows : List UInt8}
      (h : Rows sampleHead.pool attrs rows) :
      Rows sampleHead.pool (("Signature", [0, 1]) :: attrs) ([0, 3, 0, 0, 0, 2, 0, 1] ++ rows) :=
    .cons (by decide : 3 < 65536) rfl (by decide) h
  refine ⟨[("Signature", [0, 1]), ("X", [7])], [("X", []), ("Signature", [0, 1])],
    ⟨by decide, _, ?_, rfl⟩, ⟨by decide, _, ?_, rfl⟩, ?_⟩
  · exact hsignature (.cons (by decide : 4 < 65536) rfl (by decide) .nil)
  · exact .cons (by decide : 4 < 65536) rfl (by decide) (hsignature .nil)
  · cases c <;> decide

/-- Unknown attributes do not count, wherever they stand and whatever they hold. -/
theorem attributes_count_by_kind_sample :
    (∀ c : Context, c.SameTables sampleHead.pool sampleTable sampleTable') ∧
      (∀ c : Context, ∀ seen, Alike (c.read sampleHead.pool seen) sampleTable sampleTable') ∧
      Variant (sampleFront ++ [0, 0, 0, 0] ++ sampleTable)
        (sampleFront ++ [0, 0, 0, 0] ++ sampleTable') ∧
      (parse (sampleFront ++ [0, 0, 0, 0] ++ sampleTable)).toOption =
        (parse (sampleFront ++ [0, 0, 0, 0] ++ sampleTable')).toOption := by
  have hvariant : Variant (sampleFront ++ [0, 0, 0, 0] ++ sampleTable)
      (sampleFront ++ [0, 0, 0, 0] ++ sampleTable') :=
    .mk yields_sampleFront (by decide) .nil (by decide) .nil (sameTables_sample .ofClass)
  obtain ⟨htables, -, -, hfiles⟩ := attributes_count_by_kind
  exact ⟨sameTables_sample, fun c seen => htables c _ seen _ _ (sameTables_sample c), hvariant,
    hfiles _ _ hvariant⟩

end ClassFile

end ClassAudit
