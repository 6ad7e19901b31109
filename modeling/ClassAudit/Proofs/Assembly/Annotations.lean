import ClassAudit.Proofs.Assembly.Attributes

/-! # Annotations, assembled and read

    Element values nest, and the reader that meets them has fuel. A value has at least one byte more
    than what it contains, so the length of its bytes is fuel enough: every statement below is about
    any fuel that is at least that much.

    The reader of values keeps what it has seen in reverse, in front of what was seen before.
-/

namespace ClassAudit.Assembly

open Reader (Reads ReadsEach)
open AnnotationInfo (readBody readValue readTable readParameters ofAttribute)

variable {pool : ConstantPool}
variable {count slot : Nat} {refs : List String} {bytes : List UInt8} {descriptor : String}

/-! ### Element values -/

/-- The bytes are read as things that refer to `refs`. -/
def ReadsRefs (r : Nat → List String → Reader (List String)) (refs : List String)
    (bytes : List UInt8) : Prop :=
  ∀ fuel offset seen, bytes.length ≤ fuel → Reads offset (r fuel seen) bytes (refs.reverse ++ seen)

namespace ReadsRefs

variable {r : Nat → List String → Reader (List String)}

theorem go_nil : ReadsRefs (fun fuel => Reader.foldTable.go (r fuel) 0) [] [] :=
  fun _ offset seen _ => Reads.pure offset seen

theorem go_cons {refs' : List String} {bytes' : List UInt8} (h : ReadsRefs r refs bytes)
    (h' : ReadsRefs (fun fuel => Reader.foldTable.go (r fuel) count) refs' bytes') :
    ReadsRefs (fun fuel => Reader.foldTable.go (r fuel) (count + 1)) (refs ++ refs')
      (bytes ++ bytes') := by
  intro fuel offset seen hfuel
  rw [List.length_append] at hfuel
  -- The others are read with what the first one has left.
  have htail := h' fuel (offset + bytes.length) (refs.reverse ++ seen) (by omega)
  rw [← List.append_assoc, ← List.reverse_append] at htail
  exact (h fuel offset seen (by omega)).bind htail

theorem table (hcount : count < 65536)
    (h : ReadsRefs (fun fuel => Reader.foldTable.go (r fuel) count) refs bytes) :
    ReadsRefs (fun fuel => Reader.foldTable (r fuel)) refs (u2 count ++ bytes) := by
  intro fuel offset seen hfuel
  rw [List.length_append] at hfuel
  exact (Reads.u2 offset hcount).bind (h fuel _ seen (by omega))

end ReadsRefs

/-- A named element: its name is passed over. -/
def readElement (pool : ConstantPool) (fuel : Nat) (seen : List String) :
    Reader (List String) := do
  Reader.skip 2
  readValue pool fuel seen

theorem readsRefs_element {name : List UInt8} (hname : name.length = 2)
    (h : ReadsRefs (readValue pool) refs bytes) :
    ReadsRefs (readElement pool) refs (name ++ bytes) := by
  intro fuel offset seen hfuel
  rw [List.length_append] at hfuel
  exact (Reads.skip_of_length offset hname).bind (h fuel _ seen (by omega))

/-- The bytes are read as the body of an annotation. -/
def ReadsBody (pool : ConstantPool) (descriptor : String) (refs : List String)
    (bytes : List UInt8) : Prop :=
  ∀ fuel offset seen, bytes.length ≤ fuel →
    Reads offset (readBody pool (readValue pool fuel) seen) bytes
      (descriptor, refs.reverse ++ seen)

theorem readsBody (hslot : TextSlot pool descriptor slot) (hcount : count < 65536)
    (h : ReadsRefs (fun fuel => Reader.foldTable.go (readElement pool fuel) count) refs bytes) :
    ReadsBody pool descriptor refs (u2 slot ++ u2 count ++ bytes) := by
  intro fuel offset seen hfuel
  rw [List.append_assoc] at hfuel ⊢
  rw [List.length_append] at hfuel
  refine (Reads.u2 offset hslot.lt).bind (Reads.lift_bind hslot.utf8 ?_)
  exact (h.table hcount fuel _ seen (by omega)).map fun refs => (descriptor, refs)

/-- What follows the tag of a value, where the values inside it are read with `fuel`. -/
def readTagged (pool : ConstantPool) (fuel : Nat) (seen : List String) (tag : UInt8) :
    Reader (List String) := do
  if AnnotationInfo.isConstantTag tag then
    Reader.skip 2
    return seen
  else if tag.toNat = 'e'.toNat then
    let descriptor ← pool.utf8 (← Reader.u2)
    Reader.skip 2
    return descriptor :: seen
  else if tag.toNat = 'c'.toNat then
    return (← pool.utf8 (← Reader.u2)) :: seen
  else if tag.toNat = '@'.toNat then
    let (descriptor, refs) ← readBody pool (readValue pool fuel) seen
    return descriptor :: refs
  else if tag.toNat = '['.toNat then
    Reader.foldTable (readValue pool fuel) seen
  else Reader.fail (.badElementTag tag)

theorem readValue_succ (fuel : Nat) (seen : List String) :
    readValue pool (fuel + 1) seen = Reader.u1 >>= readTagged pool fuel seen :=
  rfl

/-- The tag of a value is the byte that it has more than what it contains. -/
theorem readsRefs_tagged {tag : UInt8}
    (h : ∀ fuel offset seen, bytes.length ≤ fuel →
      Reads offset (readTagged pool fuel seen tag) bytes (refs.reverse ++ seen)) :
    ReadsRefs (readValue pool) refs (tag :: bytes) := by
  intro fuel offset seen hfuel
  cases fuel with
  | zero => simp at hfuel
  | succ fuel =>
    -- The tag uses up one unit, which leaves enough for the other bytes.
    rw [List.length_cons] at hfuel
    rw [readValue_succ]
    exact (Reads.u1 offset tag).bind (h fuel _ seen (by omega))

theorem readsRefs_constant {tag : UInt8} (htag : AnnotationInfo.isConstantTag tag = true)
    (v : Int) : ReadsRefs (readValue pool) [] (tag :: u2 v) := by
  refine readsRefs_tagged fun fuel offset seen _ => ?_
  unfold readTagged
  rw [if_pos htag]
  exact (Reads.skip offset (u2 v)).map fun _ => seen

theorem readsRefs_enum (h : TextSlot pool descriptor slot) (v : Int) :
    ReadsRefs (readValue pool) [descriptor] ('e'.toUInt8 :: u2 slot ++ u2 v) := by
  refine readsRefs_tagged fun fuel offset seen _ => ?_
  unfold readTagged
  rw [if_neg (by decide), if_pos (by decide)]
  refine (Reads.u2 offset h.lt).bind (Reads.lift_bind h.utf8 ?_)
  exact (Reads.skip _ (u2 v)).map fun _ => descriptor :: seen

theorem readsRefs_classLiteral (h : TextSlot pool descriptor slot) :
    ReadsRefs (readValue pool) [descriptor] ('c'.toUInt8 :: u2 slot) := by
  refine readsRefs_tagged fun fuel offset seen _ => ?_
  unfold readTagged
  rw [if_neg (by decide), if_neg (by decide), if_pos (by decide)]
  exact (Reads.u2 offset h.lt).bind_nil (Reads.lift_bind h.utf8 (Reads.pure _ _))

theorem readsRefs_nested (h : ReadsBody pool descriptor refs bytes) :
    ReadsRefs (readValue pool) (refs ++ [descriptor]) ('@'.toUInt8 :: bytes) := by
  refine readsRefs_tagged fun fuel offset seen hfuel => ?_
  unfold readTagged
  rw [if_neg (by decide), if_neg (by decide), if_neg (by decide), if_pos (by decide)]
  rw [List.reverse_append]
  exact (h fuel offset seen hfuel).map fun x => x.1 :: x.2

theorem readsRefs_array
    (h : ReadsRefs (fun fuel => Reader.foldTable (readValue pool fuel)) refs bytes) :
    ReadsRefs (readValue pool) refs ('['.toUInt8 :: bytes) := by
  refine readsRefs_tagged fun fuel offset seen hfuel => ?_
  unfold readTagged
  rw [if_neg (by decide), if_neg (by decide), if_neg (by decide), if_neg (by decide),
    if_pos (by decide)]
  exact h fuel offset seen hfuel

theorem encodable_elementName {name : String} (h : Encodable name) :
    Encodable (Value.elementName name) := by
  unfold Value.elementName
  split
  · decide
  · exact h

mutual

theorem Assembles.value {v : Value} (h : v.Fits) :
    Assembles pool v.write (ReadsRefs (readValue pool) v.refs) := by
  cases v with
  | int value =>
    exact (integer value).map fun slot _ => readsRefs_constant (by decide) slot
  | text value =>
    exact (utf8 h).map fun slot _ => readsRefs_constant (by decide) slot
  | enum descriptor name =>
    refine (utf8 h.1).bind fun slot _ => (utf8 h.2).map fun slot' _ hslot => ?_
    exact readsRefs_enum hslot slot'
  | classLiteral descriptor =>
    exact (utf8 h).map fun slot hslot => readsRefs_classLiteral hslot
  | nested descriptor elements =>
    obtain ⟨hdescriptor, hcount, helements⟩ := h
    refine (utf8 hdescriptor).bind fun slot _ => (Assembles.elements helements).map ?_
    intro bytes hbytes hslot
    exact readsRefs_nested (readsBody hslot hcount hbytes)
  | array values =>
    exact (Assembles.values h.2).map fun bytes hbytes => readsRefs_array (hbytes.table h.1)

theorem Assembles.elements {elements : List (String × Value)} (h : Value.ElementsFit elements) :
    Assembles pool (Value.writeElements elements)
      (ReadsRefs (fun fuel => Reader.foldTable.go (readElement pool fuel) elements.length)
        (Value.elementRefs elements)) := by
  match elements with
  | [] => exact .pure trivial ReadsRefs.go_nil
  | (name, v) :: rest =>
    obtain ⟨hname, hvalue, hrest⟩ := h
    refine (utf8 (encodable_elementName hname)).bind fun slot _ => ?_
    refine (value hvalue).bind fun bytes _ => (Assembles.elements hrest).map ?_
    intro bytes' hbytes' hbytes _
    exact (readsRefs_element (length_u2 slot) hbytes).go_cons hbytes'

theorem Assembles.values {values : List Value} (h : Value.AllFit values) :
    Assembles pool (Value.writeAll values)
      (ReadsRefs (fun fuel => Reader.foldTable.go (readValue pool fuel) values.length)
        (Value.allRefs values)) := by
  match values with
  | [] => exact .pure trivial ReadsRefs.go_nil
  | v :: rest =>
    refine (value h.1).bind fun bytes _ => (Assembles.values h.2).map ?_
    intro bytes' hbytes' hbytes
    exact hbytes.go_cons hbytes'

end

/-! ### Lengths -/

mutual

/-- An element value has the length that its description says, whatever the pool. -/
theorem Value.length_write (v : Value) (p : Pool) : (v.write p).1.length = v.size := by
  match v with
  | .int value => rfl
  | .text value => rfl
  | .enum descriptor name => rfl
  | .classLiteral descriptor => rfl
  | .nested descriptor elements =>
    show (_ :: (u2 _ ++ u2 _ ++ (Value.writeElements elements _).1)).length = _
    rw [List.length_cons, List.length_append, Value.length_writeElements, List.length_append,
      length_u2, length_u2, Value.size]
    omega
  | .array values =>
    show (_ :: (u2 _ ++ (Value.writeAll values _).1)).length = _
    rw [List.length_cons, List.length_append, Value.length_writeAll, length_u2, Value.size]
    omega

theorem Value.length_writeElements (elements : List (String × Value)) (p : Pool) :
    (Value.writeElements elements p).1.length = Value.elementsSize elements := by
  match elements with
  | [] => rfl
  | (name, v) :: rest =>
    show (u2 _ ++ (v.write _).1 ++ (Value.writeElements rest _).1).length = _
    rw [List.length_append, List.length_append, Value.length_write, Value.length_writeElements]
    rfl

theorem Value.length_writeAll (values : List Value) (p : Pool) :
    (Value.writeAll values p).1.length = Value.allSize values := by
  match values with
  | [] => rfl
  | v :: rest =>
    show ((v.write _).1 ++ (Value.writeAll rest _).1).length = _
    rw [List.length_append, Value.length_write, Value.length_writeAll]
    rfl

end

theorem length_annotationTable (annotations : List AnnotationSpec) (p : Pool) :
    (Assembler.table AnnotationSpec.write annotations p).1.length =
      AnnotationSpec.tableSize annotations := by
  refine length_table (fun a _ p => ?_) p
  show (u2 _ ++ u2 _ ++ (Value.writeElements a.elements _).1).length = _
  rw [List.length_append, Value.length_writeElements]
  rfl

/-! ### Annotations -/

namespace Assembles

theorem annotationBody {a : AnnotationSpec} (h : a.Fits) :
    Assembles pool a.write (ReadsBody pool a.descriptor (Value.elementRefs a.elements)) := by
  refine (utf8 h.descriptor).bind fun slot _ => (elements h.elements).map ?_
  intro bytes hbytes hslot
  exact readsBody hslot h.count hbytes

theorem annotationTable (target : AnnotationTarget) (visible : Bool) (parameter : Nat)
    {annotations : List AnnotationSpec} (hlen : annotations.length < 65536)
    (h : ∀ a ∈ annotations, a.Fits) :
    Assembles pool (Assembler.table AnnotationSpec.write annotations) fun bytes =>
      ∀ fuel offset, bytes.length ≤ fuel →
        Reads offset (readTable pool target visible parameter fuel) bytes
          (annotations.map (AnnotationSpec.described target visible parameter)) := by
  refine table_within hlen fun a ha => (annotationBody (h a ha)).mono ?_ fun _ h => h
  intro bytes _ hbytes fuel offset hfuel
  -- A table starts each annotation with nothing seen, and turns the result around.
  have hread := (hbytes fuel offset [] hfuel).map fun x : String × List String =>
    (⟨target, parameter, x.1, visible, x.2.reverse⟩ : AnnotationInfo)
  rw [List.append_nil, List.reverse_reverse] at hread
  exact hread

theorem annotationAttribute {name : String} (hname : Encodable name) (visible : Bool)
    {annotations : List AnnotationSpec} (hlen : annotations.length < 65536)
    (hsize : AnnotationSpec.tableSize annotations < 4294967296) (h : ∀ a ∈ annotations, a.Fits)
    (target : AnnotationTarget) :
    Assembles pool (AnnotationSpec.attribute? name annotations)
      (Optional name (annotations.map (AnnotationSpec.described target visible 0) = [])
        fun body => ofAttribute pool target visible body =
          .ok (annotations.map (AnnotationSpec.described target visible 0)))
      (Framed 1) := by
  cases annotations with
  | nil => exact .pure (.nil 1) (.none rfl)
  | cons a annotations =>
    have htable : Assembles pool _ _ fun body : List UInt8 => body.length < 4294967296 :=
      with_always (annotationTable target visible 0 hlen h) fun p =>
        Nat.lt_of_le_of_lt (Nat.le_of_eq (length_annotationTable _ p)) hsize
    refine htable.bind fun body hbody => .pure (.single hname hbody) fun hread => .one ?_
    exact (hread body.length 0 (Nat.le_refl _)).on

end Assembles

/-- The attributes of the annotations of a target. -/
def ShowsAnnotations (pool : ConstantPool) (target : AnnotationTarget)
    (annotations : List AnnotationSpec) (attrs : List (String × List UInt8)) : Prop :=
  ∃ visible invisible more more', attrs = visible ++ invisible ∧
    AnnotationSpec.describedAll target annotations = more ++ more' ∧
    Optional "RuntimeVisibleAnnotations" (more = [])
      (fun body => ofAttribute pool target true body = .ok more) visible ∧
    Optional "RuntimeInvisibleAnnotations" (more' = [])
      (fun body => ofAttribute pool target false body = .ok more') invisible

/-- In a state that collects annotations, `put`, they come behind those that are already there. -/
theorem ShowsAnnotations.shows {σ : Type} {add : σ → String → List UInt8 → Except Malformed σ}
    {target : AnnotationTarget} {annotations : List AnnotationSpec}
    {attrs : List (String × List UInt8)} (h : ShowsAnnotations pool target annotations attrs)
    (put : List AnnotationInfo → σ) (seen : List AnnotationInfo)
    (hvisible : ∀ seen more body, ofAttribute pool target true body = .ok more →
      add (put seen) "RuntimeVisibleAnnotations" body = .ok (put (seen ++ more)))
    (hinvisible : ∀ seen more body, ofAttribute pool target false body = .ok more →
      add (put seen) "RuntimeInvisibleAnnotations" body = .ok (put (seen ++ more))) :
    Shows add attrs (put seen) (put (seen ++ AnnotationSpec.describedAll target annotations)) := by
  obtain ⟨visible, invisible, more, more', rfl, hall, h, h'⟩ := h
  rw [hall, ← List.append_assoc]
  have hfirst : Shows add visible (put seen) (put (seen ++ more)) := by
    refine h.shows ?_ fun body => hvisible seen more body
    rintro rfl
    rw [List.append_nil]
  refine hfirst.append (h'.shows ?_ fun body => hinvisible (seen ++ more) more' body)
  rintro rfl
  rw [List.append_nil]

theorem Assembles.annotations {annotations : List AnnotationSpec}
    (h : AnnotationSpec.AllFit annotations) (target : AnnotationTarget) :
    Assembles pool (AnnotationSpec.attributes annotations)
      (ShowsAnnotations pool target annotations) (Framed 2) := by
  have hfits {q : AnnotationSpec → Bool} : ∀ a ∈ annotations.filter q, a.Fits :=
    fun a ha => h.each a (List.mem_of_mem_filter ha)
  refine (annotationAttribute (by decide) true h.visible h.visibleSize hfits target).bind
    fun visible hframed => ?_
  refine (annotationAttribute (by decide) false h.invisible h.invisibleSize hfits target).bind
    fun invisible hframed' => ?_
  refine .pure (hframed.append hframed') fun hinvisible hvisible => ?_
  exact ⟨visible, invisible, _, _, rfl, rfl, hvisible, hinvisible⟩

/-! ### Parameters and default values -/

namespace Assembles

/-- The annotation tables of parameters, of which the first has the number `first`. -/
theorem parameterTables {params : List (List AnnotationSpec)}
    (h : ∀ annotations ∈ params, annotations.length < 65536 ∧ ∀ a ∈ annotations, a.Fits)
    (first : Nat) :
    Assembles pool (Assembler.each (Assembler.table AnnotationSpec.write) params) fun bytes =>
      ∀ fuel offset, bytes.length ≤ fuel →
        Reads offset (readParameters pool true fuel params.length first) bytes
          ((params.zipIdx first).flatMap fun (annotations, parameter) =>
            annotations.map (AnnotationSpec.described .parameter true parameter)) := by
  induction params generalizing first with
  | nil => exact .pure trivial fun _ offset _ => Reads.pure offset []
  | cons annotations params ih =>
    obtain ⟨hlen, hfits⟩ := h annotations List.mem_cons_self
    refine (annotationTable .parameter true first hlen hfits).bind fun bytes _ => ?_
    have hrest := ih (fun a ha => h a (List.mem_cons_of_mem _ ha)) (first + 1)
    refine hrest.map fun bytes' hbytes' hbytes fuel offset hfuel => ?_
    rw [List.length_append] at hfuel
    refine ((hbytes fuel offset (by omega)).inside _).bind ?_
    exact (hbytes' fuel _ (by omega)).map _

theorem parameters {m : Method} (h : m.Fits) :
    Assembles pool m.parameterAttribute
      (Optional "RuntimeVisibleParameterAnnotations" (m.describedParameters = [])
        fun body => AnnotationInfo.ofParameterAttribute pool true body =
          .ok m.describedParameters) (Framed 1) := by
  have hfits := h.parameters
  have hcount := h.parameterCount
  have hsize := h.parameterSize
  unfold Method.parameterAttribute Method.describedParameters
  cases hparams : m.paramAnnotations with
  | nil => exact .pure (.nil 1) (.none rfl)
  | cons annotations params =>
    rw [hparams] at hfits hcount hsize
    have htables : Assembles pool _ _ fun tables : List UInt8 =>
        tables.length = ((annotations :: params).map AnnotationSpec.tableSize).sum :=
      with_always (parameterTables hfits 0) (length_each fun a _ => length_annotationTable a)
    refine htables.bind fun tables hlen => .pure (.single (by decide) ?_) fun hread => .one ?_
    · rw [List.length_cons, hlen, Nat.add_comm]
      exact hsize
    · refine Reads.on ((Reads.u1 0 _).bind ?_)
      rw [toNat_byte (by omega)]
      exact hread _ 1 (Nat.le_succ _)

theorem default {m : Method} (h : m.Fits) :
    Assembles pool m.defaultAttribute
      (Optional "AnnotationDefault" (m.describedDefault = [])
        fun body => ∃ a, m.describedDefault = [a] ∧
          AnnotationInfo.ofDefaultAttribute pool body = .ok a) (Framed 1) := by
  unfold Method.defaultAttribute Method.describedDefault
  cases hdefault : m.default with
  | none => exact .pure (.nil 1) (.none rfl)
  | some v =>
    obtain ⟨hfits, hsize⟩ := h.default v hdefault
    have hvalue : Assembles pool _ _ fun body : List UInt8 => body.length = v.size :=
      with_always (value hfits) v.length_write
    refine hvalue.bind fun body hlen => .pure (.single (by decide) (by omega)) fun hread => ?_
    refine .one ⟨_, rfl, ?_⟩
    unfold AnnotationInfo.ofDefaultAttribute
    rw [(hread body.length 0 [] (Nat.le_refl _)).on, List.append_nil]
    show Except.ok _ = _
    rw [List.reverse_reverse]

end Assembles

end ClassAudit.Assembly
