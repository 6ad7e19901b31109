import ClassAudit.Proofs.Assembly.Annotations
import ClassAudit.Proofs.Assembly.Code

/-! # Classes, assembled and read

    The class file of a description is read as the class that it describes, `Class.described`.
-/

namespace ClassAudit.Assembly

open Reader (Reads ReadsEach)

variable {pool : ConstantPool}

/-! ### Attributes of members -/

theorem TextSlot.text {text : String} {s : Nat} (h : TextSlot pool text s) :
    Attribute.text pool (u2 s) = .ok text :=
  ((Reads.u2 0 h.lt).bind_nil (Reads.lift _ h.utf8)).on

namespace Assembles

theorem textAttribute {name text : String} (hname : Encodable name) (h : Encodable text) :
    Assembles pool
      (if text = "" then Pure.pure []
        else do Pure.pure [(name, u2 (← Assembler.utf8 text))])
      (Optional name (text = "") fun body => Attribute.text pool body = .ok text) (Framed 1) := by
  by_cases hnone : text = ""
  · rw [if_pos hnone]
    exact .pure (.nil 1) (.none hnone)
  · rw [if_neg hnone]
    refine (utf8 h).bind fun s _ => .pure (.single hname ?_) fun hs => .one hs.text
    rw [length_u2]
    decide

theorem signature {signature : String} (h : Encodable signature) :
    Assembles pool (signatureAttribute signature)
      (Optional "Signature" (signature = "") fun body => Attribute.text pool body = .ok signature)
      (Framed 1) :=
  textAttribute (by decide) h

theorem source {c : Class} (h : Encodable c.sourceFile) :
    Assembles pool c.sourceAttribute
      (Optional "SourceFile" (c.sourceFile = "") fun body =>
        Attribute.text pool body = .ok c.sourceFile) (Framed 1) :=
  textAttribute (by decide) h

theorem classTable {names : List String} (hlen : names.length < 65536)
    (h : ∀ name ∈ names, Encodable name) {look : Nat → Except Malformed String}
    (hlook : ∀ name s, ClassSlot pool name s → look s = .ok name) :
    Assembles pool (Assembler.table (fun name => return u2 (← Assembler.classInfo name)) names)
      (fun bytes => ∀ offset,
        Reads offset (Reader.table do liftM (look (← Reader.u2))) bytes names)
      (fun bytes => bytes.length < 4294967296) := by
  have hrow : ∀ name ∈ names,
      Assembles pool (do Pure.pure (u2 (← Assembler.classInfo name))) fun bytes => ∀ offset,
        Reads offset (do liftM (look (← Reader.u2))) bytes (id name) := by
    intro name hname
    refine (classInfo (h name hname)).map fun s hs offset => ?_
    exact (Reads.u2 offset hs.lt).bind_nil (Reads.lift _ (hlook name s hs))
  have htable := table hlen hrow
  rw [List.map_id] at htable
  refine with_always htable fun p => ?_
  rw [length_rows fun name p => length_u2 (Assembler.classInfo name p).1]
  omega

theorem exceptions {m : Method} (h : m.Fits) :
    Assembles pool m.exceptionsAttribute
      (Optional "Exceptions" (m.exceptions = []) fun body =>
        Attribute.classNames pool body = .ok m.exceptions) (Framed 1) := by
  have hcount := h.exceptionCount
  have hnames := h.exceptions
  unfold Method.exceptionsAttribute
  cases hexceptions : m.exceptions with
  | nil => exact .pure (.nil 1) (.none rfl)
  | cons name names =>
    rw [hexceptions] at hcount hnames
    refine (classTable hcount hnames fun name s hs => hs.className).bind fun body hbody => ?_
    exact .pure (.single (by decide) hbody) fun hread => .one (hread 0).on

theorem codeAttribute {m : Method} (h : m.Fits)
    (hcomplete : ∀ code, m.code = some code → ∀ x ∈ Code.placed 0 code, x.2.Complete x.1) :
    Assembles pool m.codeAttribute
      (Optional "Code" (m.code = none) fun body => ∃ code, m.code = some code ∧
        (ClassAudit.Code.read pool).on body = .ok code.described) (Framed 1) := by
  unfold Method.codeAttribute
  cases hcode : m.code with
  | none => exact .pure (.nil 1) (.none rfl)
  | some body =>
    have hfits := h.code body hcode
    refine (code hfits (hcomplete body hcode)).bind fun bytes hbytes => ?_
    have hshort := hfits.size
    exact .pure (.single (by decide) (by omega)) fun hread => .one ⟨body, rfl, hread⟩

end Assembles

/-! ### Members -/

theorem reads_header {access : Int} (h : IsU2 access) {name descriptor : String} {s t : Nat}
    (hname : TextSlot pool name s) (hdescriptor : TextSlot pool descriptor t) (offset : Nat) :
    Reads offset (MemberHeader.read pool) (u2 access ++ u2 s ++ u2 t)
      ⟨access.toNat, name, descriptor⟩ := by
  rw [List.append_assoc]
  refine (Reads.u2_int _ h.1 h.2).bind ((Reads.u2 _ hname.lt).bind ?_)
  refine (Reads.u2 _ hdescriptor.lt).bind_nil ?_
  exact Reads.lift_bind hname.utf8 (Reads.lift_bind hdescriptor.utf8 (Reads.pure _ _))

/-- The attributes of a field show its generic type and its annotations. -/
theorem shows_field {f : Field} {signature annotations : List (String × List UInt8)}
    (hsignature : Optional "Signature" (f.signature = "")
      (fun body => Attribute.text pool body = .ok f.signature) signature)
    (hannotations : ShowsAnnotations pool .fieldDecl f.annotations annotations) :
    Shows (ClassAudit.Field.Attributes.add pool) (signature ++ annotations) ⟨"", []⟩
      ⟨f.signature, f.described.annotations⟩ := by
  have hfirst : Shows (ClassAudit.Field.Attributes.add pool) signature ⟨"", []⟩
      ⟨f.signature, []⟩ := by
    refine hsignature.shows (fun hnone => by rw [hnone]) fun body hbody => ?_
    unfold ClassAudit.Field.Attributes.add
    simp only [hbody]
    rfl
  refine hfirst.append (hannotations.shows (ClassAudit.Field.Attributes.mk f.signature) [] ?_ ?_)
  · intro seen more body hbody
    unfold ClassAudit.Field.Attributes.add
    simp only [hbody]
    rfl
  · intro seen more body hbody
    unfold ClassAudit.Field.Attributes.add
    simp only [hbody]
    rfl

theorem Assembles.fieldMember {f : Field} (h : f.Fits) :
    Assembles pool f.write fun bytes => ∀ offset,
      Reads offset (ClassAudit.Field.read pool) bytes f.described := by
  refine (utf8 h.name).bind fun s _ => (utf8 h.descriptor).bind fun t _ => ?_
  refine (signature h.signature).bind fun signature hsignature => ?_
  refine (annotations h.annotations .fieldDecl).bind fun annotations hannotations => ?_
  refine (attributes (hsignature.append hannotations) (by decide)).map fun attrs hattrs => ?_
  intro hannotations hsignature hdescriptor hname offset
  refine ((reads_header h.access hname hdescriptor offset).inside _).bind ?_
  exact ((hattrs _ _ _ _ _ (shows_field hsignature hannotations)).inside _).map _

/-- The attributes of a method show its code, its generic type, its exceptions and its
    annotations. -/
theorem shows_method {m : Method}
    {code signature exceptions default annotations parameters : List (String × List UInt8)}
    (hcode : Optional "Code" (m.code = none) (fun body => ∃ code, m.code = some code ∧
      (ClassAudit.Code.read pool).on body = .ok code.described) code)
    (hsignature : Optional "Signature" (m.signature = "")
      (fun body => Attribute.text pool body = .ok m.signature) signature)
    (hexceptions : Optional "Exceptions" (m.exceptions = [])
      (fun body => Attribute.classNames pool body = .ok m.exceptions) exceptions)
    (hdefault : Optional "AnnotationDefault" (m.describedDefault = [])
      (fun body => ∃ a, m.describedDefault = [a] ∧
        AnnotationInfo.ofDefaultAttribute pool body = .ok a) default)
    (hannotations : ShowsAnnotations pool .methodDecl m.annotations annotations)
    (hparameters : Optional "RuntimeVisibleParameterAnnotations" (m.describedParameters = [])
      (fun body => AnnotationInfo.ofParameterAttribute pool true body =
        .ok m.describedParameters) parameters) :
    Shows (ClassAudit.Method.Attributes.add pool)
      (code ++ signature ++ exceptions ++ default ++ annotations ++ parameters)
      ⟨none, "", [], [], [], []⟩
      ⟨m.described.code, m.signature, m.exceptions, m.describedDefault,
        AnnotationSpec.describedAll .methodDecl m.annotations, m.describedParameters⟩ := by
  -- One kind of attribute after the other fills its field.
  let add := ClassAudit.Method.Attributes.add pool
  have hcode' : Shows add code ⟨none, "", [], [], [], []⟩
      ⟨m.described.code, "", [], [], [], []⟩ := by
    refine hcode.shows (fun hnone => ?_) fun body ⟨c, hsome, hbody⟩ => ?_
    · have hdescribed : m.described.code = none := congrArg (Option.map Code.described) hnone
      rw [hdescribed]
    · have hdescribed : m.described.code = some c.described :=
        congrArg (Option.map Code.described) hsome
      simp only [add, ClassAudit.Method.Attributes.add, hbody, hdescribed]
      rfl
  have hsignature' : Shows add signature ⟨m.described.code, "", [], [], [], []⟩
      ⟨m.described.code, m.signature, [], [], [], []⟩ := by
    refine hsignature.shows (fun hnone => by rw [hnone]) fun body hbody => ?_
    simp only [add, ClassAudit.Method.Attributes.add, hbody]
    rfl
  have hexceptions' : Shows add exceptions ⟨m.described.code, m.signature, [], [], [], []⟩
      ⟨m.described.code, m.signature, m.exceptions, [], [], []⟩ := by
    refine hexceptions.shows (fun hnone => by rw [hnone]) fun body hbody => ?_
    simp only [add, ClassAudit.Method.Attributes.add, hbody]
    rfl
  have hdefault' : Shows add default ⟨m.described.code, m.signature, m.exceptions, [], [], []⟩
      ⟨m.described.code, m.signature, m.exceptions, m.describedDefault, [], []⟩ := by
    refine hdefault.shows (fun hnone => by rw [hnone]) fun body ⟨a, hone, hbody⟩ => ?_
    simp only [add, ClassAudit.Method.Attributes.add, hbody, hone]
    rfl
  let annotated (seen : List AnnotationInfo) : ClassAudit.Method.Attributes :=
    ⟨m.described.code, m.signature, m.exceptions, m.describedDefault, seen, []⟩
  have hannotations' : Shows add annotations (annotated [])
      (annotated (AnnotationSpec.describedAll .methodDecl m.annotations)) := by
    refine hannotations.shows annotated [] ?_ ?_
    · intro seen more body hbody
      simp only [add, ClassAudit.Method.Attributes.add, hbody]
      rfl
    · intro seen more body hbody
      simp only [add, ClassAudit.Method.Attributes.add, hbody]
      rfl
  have hparameters' : Shows add parameters
      (annotated (AnnotationSpec.describedAll .methodDecl m.annotations))
      ⟨m.described.code, m.signature, m.exceptions, m.describedDefault,
        AnnotationSpec.describedAll .methodDecl m.annotations, m.describedParameters⟩ := by
    refine hparameters.shows (fun hnone => by rw [hnone]) fun body hbody => ?_
    simp only [add, ClassAudit.Method.Attributes.add, hbody]
    rfl
  exact ((((hcode'.append hsignature').append hexceptions').append hdefault').append
    hannotations').append hparameters'

theorem Assembles.methodMember {m : Method} (h : m.Fits)
    (hcomplete : ∀ code, m.code = some code → ∀ x ∈ Code.placed 0 code, x.2.Complete x.1) :
    Assembles pool m.write fun bytes => ∀ offset,
      Reads offset (ClassAudit.Method.read pool) bytes m.described := by
  refine (utf8 h.name).bind fun s _ => (utf8 h.descriptor).bind fun t _ => ?_
  refine (codeAttribute h hcomplete).bind fun code hcode => ?_
  refine (signature h.signature).bind fun signature hsignature => ?_
  refine (exceptions h).bind fun exceptions hexceptions => ?_
  refine (default h).bind fun default hdefault => ?_
  refine (annotations h.annotations .methodDecl).bind fun annotations hannotations => ?_
  refine (parameters h).bind fun parameters hparameters => ?_
  have hframed := ((((hcode.append hsignature).append hexceptions).append hdefault).append
    hannotations).append hparameters
  refine (attributes hframed (by decide)).map fun attrs hattrs => ?_
  -- From here on the pool is finished, and what was asked for is where it was promised.
  intro hparameters hannotations hdefault hexceptions hsignature hcode hdescriptor hname offset
  have hshows :=
    shows_method hcode hsignature hexceptions hdefault hannotations hparameters
  refine ((reads_header h.access hname hdescriptor offset).inside _).bind ?_
  exact ((hattrs _ _ _ _ _ hshows).inside _).map _

/-! ### Classes -/

/-- The attributes of a class show its source file, its generic type and its annotations. -/
theorem shows_class {c : Class} {source signature annotations : List (String × List UInt8)}
    (hsource : Optional "SourceFile" (c.sourceFile = "")
      (fun body => Attribute.text pool body = .ok c.sourceFile) source)
    (hsignature : Optional "Signature" (c.signature = "")
      (fun body => Attribute.text pool body = .ok c.signature) signature)
    (hannotations : ShowsAnnotations pool .classDecl c.annotations annotations) :
    Shows (ClassFile.Attributes.add pool) (source ++ signature ++ annotations) ⟨"", "", []⟩
      ⟨c.sourceFile, c.signature, c.described.annotations⟩ := by
  have hsource' : Shows (ClassFile.Attributes.add pool) source ⟨"", "", []⟩
      ⟨c.sourceFile, "", []⟩ := by
    refine hsource.shows (fun hnone => by rw [hnone]) fun body hbody => ?_
    simp only [ClassFile.Attributes.add, hbody]
    rfl
  have hsignature' : Shows (ClassFile.Attributes.add pool) signature ⟨c.sourceFile, "", []⟩
      ⟨c.sourceFile, c.signature, []⟩ := by
    refine hsignature.shows (fun hnone => by rw [hnone]) fun body hbody => ?_
    simp only [ClassFile.Attributes.add, hbody]
    rfl
  refine (hsource'.append hsignature').append
    (hannotations.shows (ClassFile.Attributes.mk c.sourceFile c.signature) [] ?_ ?_)
  · intro seen more body hbody
    simp only [ClassFile.Attributes.add, hbody]
    rfl
  · intro seen more body hbody
    simp only [ClassFile.Attributes.add, hbody]
    rfl

theorem Assembles.superSlot {c : Class} (h : Encodable c.superName) :
    Assembles pool c.superSlot fun s =>
      s < 65536 ∧ pool.optionalClassName s = .ok c.describedSuper := by
  have hnamed {name : String} (hname : Encodable name) :
      Assembles pool (Assembler.classInfo name) fun s =>
        s < 65536 ∧ pool.optionalClassName s = .ok name :=
    (classInfo hname).mono (fun _ _ hs => ⟨hs.lt, hs.optionalClassName⟩) fun _ h => h
  unfold Class.superSlot Class.describedSuper
  split
  · next hroot =>
    rw [if_pos hroot]
    exact hnamed (by decide)
  · next hnone =>
    rw [if_neg (by rw [hnone]; decide), if_pos hnone]
    exact .pure trivial ⟨by decide, rfl⟩
  · next hroot hnone =>
    rw [if_neg hroot, if_neg hnone]
    exact hnamed h

/-- What follows the constant pool of a class file. -/
def readBody (minorVersion majorVersion : Nat) (pool : ConstantPool) : Reader ClassFile := do
  let access ← Reader.u2
  let name ← FilePart.thisClass.locate (pool.className (← Reader.u2))
  let superName ← FilePart.superClass.locate (pool.optionalClassName (← Reader.u2))
  let interfaces ← Reader.table do
    FilePart.interfaces.locate (pool.className (← Reader.u2))
  let fields ← Reader.table (ClassAudit.Field.read pool)
  let methods ← Reader.table (ClassAudit.Method.read pool)
  let seen ← Attribute.foldTable pool (ClassFile.Attributes.add pool) ⟨"", "", []⟩
  return { minorVersion, majorVersion, access, name, superName, interfaces
           signature := seen.signature, sourceFile := seen.sourceFile
           annotations := seen.annotations, fields, methods }

theorem Assembles.writeBody {c : Class} (h : c.Fits) (hcomplete : c.Complete) :
    Assembles pool c.writeBody fun bytes => ∀ offset,
      Reads offset (readBody 0 52 pool) bytes c.described := by
  refine (classInfo h.name).bind fun s _ => (superSlot h.superName).bind fun t _ => ?_
  refine (classTable h.interfaceCount h.interfaces
    fun name s hs => congrArg FilePart.interfaces.locate hs.className).bind fun interfaces _ => ?_
  refine (table h.fieldCount fun f hf => fieldMember (h.fields f hf)).bind fun fields _ => ?_
  refine (table h.methodCount fun m hm => methodMember (h.methods m hm) (hcomplete m hm)).bind
    fun methods _ => ?_
  refine (source h.sourceFile).bind fun source hsource => ?_
  refine (signature h.signature).bind fun signature hsignature => ?_
  refine (annotations h.annotations .classDecl).bind fun annotations hannotations => ?_
  have hframed := (hsource.append hsignature).append hannotations
  refine (attributes hframed (by decide)).map fun attrs hattrs => ?_
  intro hannotations hsignature hsource hmethods hfields hinterfaces ht hs offset
  have hshows := shows_class hsource hsignature hannotations
  simp only [List.append_assoc]
  refine (Reads.u2_int _ h.access.1 h.access.2).bind ((Reads.u2 _ hs.lt).bind ?_)
  refine Reads.lift_bind (congrArg FilePart.thisClass.locate hs.className) ?_
  refine (Reads.u2 _ ht.1).bind ?_
  refine Reads.lift_bind (congrArg FilePart.superClass.locate ht.2) ?_
  refine (hinterfaces _).bind ((hfields _).bind ((hmethods _).bind ?_))
  exact (hattrs _ _ _ _ _ hshows).map _

/-- A reader that takes all bytes of a class file gives the class. -/
theorem parse_of_reads {data : List UInt8} {c : ClassFile} (h : Reads 0 ClassFile.read data c) :
    ClassFile.parse data = .ok c := by
  have hparse := ClassFile.parse_append h []
  rwa [List.append_nil] at hparse

theorem Class.bytes_eq (c : Class) :
    c.bytes = u4 (0xCAFEBABE : Nat) ++ (u2 (0 : Nat) ++ (u2 (52 : Nat) ++
      (u2 c.pool.next ++ c.pool.bytes ++ (c.writeBody Pool.empty).1))) := by
  simp only [← List.append_assoc]
  rfl

theorem reads_classFile {next : Nat} {constants body : List UInt8} {c : ClassFile}
    (hpool : ∀ offset, Reads offset ConstantPool.read (u2 next ++ constants) pool)
    (hbody : ∀ offset, Reads offset (readBody 0 52 pool) body c) :
    Reads 0 ClassFile.read (u4 (0xCAFEBABE : Nat) ++ (u2 (0 : Nat) ++ (u2 (52 : Nat) ++
      (u2 next ++ constants ++ body)))) c := by
  refine (Reads.u4 0 (by decide)).bind ?_
  rw [if_neg (by decide)]
  refine (Reads.u2 _ (by decide)).bind ((Reads.u2 _ (by decide)).bind ?_)
  exact (hpool _).bind (hbody _)

/-- **Round trip.** The class file of a description that fits is read as the class that it
    describes. Single instructions must be complete, and strings that code loads must have slots of
    one byte. -/
theorem parse_bytes (c : Class) (hfits : c.Fits) (hcomplete : c.Complete)
    (hstrings : c.StringsNear) : ClassFile.parse c.bytes = .ok c.described := by
  -- The pool that the body leaves behind is the one that is written in front of it.
  have hbody : Assembles c.pool.constants c.writeBody _ := .writeBody hfits hcomplete
  obtain ⟨hgrow, -, hreads⟩ := hbody Pool.empty
  have hvalid : c.pool.Valid := hgrow.valid Pool.valid_empty
  have hheld : c.pool.HeldBy c.pool.constants :=
    Pool.held_constants hvalid hfits.poolSize hstrings
  rw [c.bytes_eq]
  exact parse_of_reads (reads_classFile (Pool.reads_bytes hvalid hfits.poolSize) (hreads hheld))

/-! ### A class that is read back -/

/-- Annotations with nested values, one of them invisible. -/
def sampleAnnotations : List AnnotationSpec :=
  [⟨"Lp/Hidden;", true, []⟩,
    ⟨"Lp/Shown;", false,
      [("", .array [.enum "Lp/E;" "X", .nested "Lp/N;" [("c", .classLiteral "Lp/C;")]])]⟩]

/-- Code with instructions of several kinds and a row of each table. -/
def sampleCode : Code :=
  [.line 3, .plain 0x2a [], .loadLong 5, .loadString "s", .invoke 0xb9 "p/I" "m" "()V",
    .tableSwitch 0 1, .catchBlock 0 1 5 "", .localVariable "x" "I" "" 1,
    .localVariable "y" "Ljava/util/List;" "Ljava/util/List<Lp/T;>;" 2, .plain 0xb1 []]

def sampleField : Field where
  access := 2
  name := "f"
  descriptor := "Ljava/util/List;"
  signature := "Ljava/util/List<Lp/T;>;"
  annotations := sampleAnnotations

def sampleMethod : Method where
  access := 1
  name := "run"
  descriptor := "(I)V"
  signature := ""
  exceptions := ["java/io/IOException"]
  annotations := []
  paramAnnotations := [sampleAnnotations]
  default := some (.int 7)
  code := some sampleCode

def sample : Class where
  access := 0x21
  name := "p/Sample"
  superName := ""
  interfaces := ["java/lang/Runnable"]
  signature := ""
  sourceFile := "Sample.java"
  annotations := sampleAnnotations
  fields := [sampleField]
  methods := [sampleMethod]

theorem AnnotationSpec.allFit_nil : AllFit [] :=
  ⟨(fun _ ha => nomatch ha), by decide, by decide, by decide, by decide⟩

theorem each_sampleAnnotations : ∀ a ∈ sampleAnnotations, a.Fits := by
  have hnested : Value.Fits (.nested "Lp/N;" [("c", .classLiteral "Lp/C;")]) :=
    ⟨by decide, by decide, by decide, (by decide : Encodable "Lp/C;"), trivial⟩
  simp only [sampleAnnotations, List.forall_mem_cons]
  refine ⟨⟨by decide, by decide, trivial⟩, ⟨by decide, by decide, ?_⟩, fun _ ha => nomatch ha⟩
  exact ⟨by decide, ⟨by decide, ⟨by decide, by decide⟩, hnested, trivial⟩, trivial⟩

theorem fits_sampleAnnotations : AnnotationSpec.AllFit sampleAnnotations :=
  ⟨each_sampleAnnotations, by decide, by decide, by decide, by decide⟩

theorem fits_sampleCode : sampleCode.Fits where
  items := by
    simp only [sampleCode, List.forall_mem_cons]
    exact ⟨(by decide : IsU2 3), trivial, trivial, (by decide : Encodable "s"),
      ⟨by decide, by decide, by decide⟩, ⟨by decide, by decide⟩,
      ⟨by decide, by decide, by decide, by decide⟩, ⟨by decide, by decide, by decide, by decide⟩,
      ⟨by decide, by decide, by decide, by decide⟩, trivial, fun _ hitem => nomatch hitem⟩
  linePcs := by decide
  lines := by decide
  catches := by decide
  locals := by decide
  slots := by decide
  size := by decide

theorem complete_sampleCode : ∀ x ∈ Code.placed 0 sampleCode, x.2.Complete x.1 := by
  simp only [sampleCode, Code.placed, List.forall_mem_cons]
  exact ⟨trivial, ⟨.plain 0, rfl, .plain rfl⟩, trivial, trivial, (by decide : (0xb9 : UInt8) ∈ _),
    ⟨by decide, by decide⟩, trivial, trivial, trivial, ⟨.plain 0, rfl, .plain rfl⟩,
    fun _ hx => absurd hx List.not_mem_nil⟩

theorem fits_sampleField : sampleField.Fits :=
  ⟨by decide, by decide, by decide, by decide, fits_sampleAnnotations⟩

theorem fits_sampleMethod : sampleMethod.Fits where
  access := by decide
  name := by decide
  descriptor := by decide
  signature := by decide
  exceptions := by decide
  exceptionCount := by decide
  annotations := AnnotationSpec.allFit_nil
  parameters := by
    intro annotations ha
    obtain rfl := List.mem_singleton.mp ha
    exact ⟨by decide, each_sampleAnnotations⟩
  parameterCount := by decide
  parameterSize := by decide
  default := by
    rintro value ⟨⟩
    exact ⟨trivial, by decide⟩
  code := by
    rintro code ⟨⟩
    exact fits_sampleCode

theorem fits_sample : sample.Fits where
  access := by decide
  name := by decide
  superName := by decide
  interfaces := by decide
  interfaceCount := by decide
  signature := by decide
  sourceFile := by decide
  annotations := fits_sampleAnnotations
  fields := by
    intro f hf
    obtain rfl := List.mem_singleton.mp hf
    exact fits_sampleField
  fieldCount := by decide
  methods := by
    intro m hm
    obtain rfl := List.mem_singleton.mp hm
    exact fits_sampleMethod
  methodCount := by decide
  poolSize := by decide +kernel

theorem complete_sample : sample.Complete := by
  intro m hm
  obtain rfl := List.mem_singleton.mp hm
  rintro code ⟨⟩
  exact complete_sampleCode

theorem stringsNear_sample : sample.StringsNear := by
  have hslots : ∀ x ∈ sample.pool.entries, x.2 ≤ 255 := by decide +kernel
  exact fun text slot hentry => hslots _ hentry

theorem parse_bytes_sample :
    (sample.Fits ∧ sample.Complete ∧ sample.StringsNear) ∧
      ClassFile.parse sample.bytes = .ok sample.described :=
  ⟨⟨fits_sample, complete_sample, stringsNear_sample⟩,
    parse_bytes sample fits_sample complete_sample stringsNear_sample⟩

/-! ### Classes that are not read back -/

/-- A class with one method of the given code. -/
def Class.ofCode (code : Code) : Class where
  access := 0
  name := "A"
  superName := ""
  interfaces := []
  signature := ""
  sourceFile := ""
  annotations := []
  fields := []
  methods := [
    { access := 0, name := "m", descriptor := "()V", signature := "", exceptions := []
      annotations := [], paramAnnotations := [], default := none, code := some code }]

theorem Class.fits_ofCode {code : Code} (h : code.Fits)
    (hpool : (Class.ofCode code).pool.next ≤ 65535) : (Class.ofCode code).Fits where
  access := (by decide : IsU2 0)
  name := (by decide : Encodable "A")
  superName := (by decide : Encodable "")
  interfaces := fun _ hname => nomatch hname
  interfaceCount := (by decide : 0 < 65536)
  signature := (by decide : Encodable "")
  sourceFile := (by decide : Encodable "")
  annotations := AnnotationSpec.allFit_nil
  fields := fun _ hf => nomatch hf
  fieldCount := (by decide : 0 < 65536)
  methods := by
    intro m hm
    obtain rfl := List.mem_singleton.mp hm
    exact
      { access := (by decide : IsU2 0)
        name := (by decide : Encodable "m")
        descriptor := (by decide : Encodable "()V")
        signature := (by decide : Encodable "")
        exceptions := fun _ hname => nomatch hname
        exceptionCount := (by decide : 0 < 65536)
        annotations := AnnotationSpec.allFit_nil
        parameters := fun _ ha => nomatch ha
        parameterCount := (by decide : 0 ≤ 255)
        parameterSize := (by decide : 1 < 4294967296)
        default := fun _ hdefault => nomatch hdefault
        code := fun _ hcode => Option.some.inj hcode ▸ h }
  methodCount := (by decide : 1 < 65536)
  poolSize := hpool

/-- A string behind 125 longs, each of which takes two slots. -/
def farString : Code :=
  (List.range 125).map (fun i : Nat => .loadLong i) ++ [.loadString "s"]

/-- Code that is not read back: switches with fewer targets than keys, opcodes of no instruction or
    of another one, and a string whose slot is too far. -/
def misread : List Code :=
  [[.tableSwitch 1 0], [.tableSwitch (-2147483648) 2147483647], [.plain 0xff []],
    [.type 0x00 "A"], farString]

theorem fits_misread : ∀ code ∈ misread, code.Fits := by
  have hitems : ∀ code ∈ misread, ∀ item ∈ code, item.Fits := by
    simp only [misread, farString, List.forall_mem_cons, List.forall_mem_append, List.forall_mem_map]
    refine ⟨⟨⟨by decide, by decide⟩, fun _ hitem => nomatch hitem⟩, ?_⟩
    refine ⟨⟨⟨by decide, by decide⟩, fun _ hitem => nomatch hitem⟩, ?_⟩
    refine ⟨⟨trivial, fun _ hitem => nomatch hitem⟩, ?_⟩
    refine ⟨⟨(by decide : Encodable "A"), fun _ hitem => nomatch hitem⟩, ?_⟩
    refine ⟨⟨fun _ _ => trivial, (by decide : Encodable "s"), fun _ hitem => nomatch hitem⟩, ?_⟩
    exact fun _ hcode => nomatch hcode
  have htables : ∀ code ∈ misread, code.lineRows = [] ∧ code.catchRows = [] ∧
      code.localRows = [] ∧ code.bodySize < 4294967296 := by
    decide +kernel
  intro code hcode
  obtain ⟨hlines, hcatches, hlocals, hsize⟩ := htables code hcode
  exact
    { items := hitems code hcode
      linePcs := by simp [hlines]
      lines := by simp [hlines]
      catches := by simp [hcatches]
      locals := by simp [hlocals]
      slots := by simp [hlocals]
      size := hsize }

/-- The instructions of a class in short: their opcodes, and the classes that they name. -/
def summary? : Except Malformed ClassFile → Option (List (Opcode × String))
  | .ok c => some (c.methods.flatMap fun m => (m.code.map fun code =>
      code.instructions.map fun i => (i.opcode, i.operand.typeName)).getD [])
  | .error _ => none

/-- Code that fits, but is not read back. -/
def IsMisread (code : Code) : Prop :=
  (Class.ofCode code).Fits ∧
    ClassFile.parse (Class.ofCode code).bytes ≠ .ok (Class.ofCode code).described

/-- Not every description that fits is read back. -/
theorem misread_fits_and_differs :
    IsMisread [.tableSwitch 1 0] ∧ IsMisread [.tableSwitch (-2147483648) 2147483647] ∧
      IsMisread [.plain 0xff []] ∧ IsMisread [.type 0x00 "A"] ∧ IsMisread farString := by
  have hrun : ∀ code ∈ misread, (Class.ofCode code).pool.next ≤ 65535 ∧
      summary? (ClassFile.parse (Class.ofCode code).bytes) ≠
        summary? (.ok (Class.ofCode code).described) := by
    decide +kernel
  have hall : ∀ code ∈ misread, IsMisread code := by
    intro code hcode
    obtain ⟨hpool, hdiffers⟩ := hrun code hcode
    refine ⟨Class.fits_ofCode (fits_misread code hcode) hpool, fun heq => ?_⟩
    exact hdiffers (congrArg summary? heq)
  simp only [misread, List.forall_mem_cons] at hall
  obtain ⟨hempty, hwide, hplain, htype, hfar, -⟩ := hall
  exact ⟨hempty, hwide, hplain, htype, hfar⟩

end ClassAudit.Assembly
