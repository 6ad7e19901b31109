import ClassAudit.ClassFile.Basic
import ClassAudit.Proofs.ClassFile.Reading

/-! # Accepted byte strings

    A reader is `Local` if a successful run depends on nothing but the bytes that it has taken: it
    takes the same bytes and gives the same value whatever follows them. All readers outside of
    attribute bodies are local, since they are put together from local ones, and a body is a byte
    string of its own.

    So a class file that is accepted is still read in front of further bytes. These are then too
    many, and no accepted byte string is the beginning of another one.
-/

namespace ClassAudit

namespace Reader

variable {α β σ : Type}

/-- A successful run has taken some bytes from the front, and would take them anywhere, whatever
    follows them. -/
def Local (r : Reader α) : Prop :=
  ∀ c a c', r c = .ok (a, c') → ∃ used, c.rest = used ++ c'.rest ∧ ∀ offset, Reads offset r used a

theorem bind_eq_ok {r : Reader α} {f : α → Reader β} {c c'' : Cursor} {b : β}
    (h : (r >>= f) c = .ok (b, c'')) : ∃ a c', r c = .ok (a, c') ∧ f a c' = .ok (b, c'') := by
  change (r c >>= fun x => f x.1 x.2) = _ at h
  cases hr : r c with
  | error e =>
    rw [hr] at h
    nomatch h
  | ok x =>
    rw [hr] at h
    exact ⟨x.1, x.2, rfl, h⟩

namespace Local

/-! ### Composition -/

theorem pure (a : α) : Local (Pure.pure a) := by
  intro c a' c' h
  obtain ⟨rfl, rfl⟩ := Prod.mk.inj (Except.ok.inj h)
  exact ⟨[], rfl, fun offset => Reads.pure offset a⟩

theorem bind {r : Reader α} {f : α → Reader β} (hr : Local r) (hf : ∀ a, Local (f a)) :
    Local (r >>= f) := by
  intro c b c'' h
  obtain ⟨a, c', hfirst, hsecond⟩ := bind_eq_ok h
  obtain ⟨used, hused, hreads⟩ := hr c a c' hfirst
  obtain ⟨used', hused', hreads'⟩ := hf a c' b c'' hsecond
  refine ⟨used ++ used', ?_, fun offset => (hreads offset).bind (hreads' _)⟩
  rw [hused, hused', List.append_assoc]

theorem ite {p : Prop} [Decidable p] {r r' : Reader α} (hr : Local r) (hr' : Local r') :
    Local (if p then r else r') := by
  split
  · exact hr
  · exact hr'

theorem of_error {r : Reader α} (h : ∀ c, ∃ e, r c = .error e) : Local r := by
  intro c a c' hok
  obtain ⟨e, he⟩ := h c
  rw [he] at hok
  nomatch hok

theorem fail (cause : MalformedCause) : Local (Reader.fail cause : Reader α) :=
  of_error fun _ => ⟨_, rfl⟩

theorem lift (e : Except Malformed α) : Local (liftM e : Reader α) := by
  cases e with
  | error e => exact of_error fun _ => ⟨e, rfl⟩
  | ok a => exact pure a

theorem inside {r : Reader α} (part : FilePart) (hr : Local r) : Local (Reader.inside part r) := by
  intro c a c' h
  -- Where a fault would be located does not matter for a run without one.
  have hok : r c = .ok (a, c') := by
    change part.locate (r c) = _ at h
    cases hrun : r c with
    | error e =>
      rw [hrun] at h
      nomatch h
    | ok x =>
      rw [hrun] at h
      exact h
  obtain ⟨used, hused, hreads⟩ := hr c a c' hok
  exact ⟨used, hused, fun offset => (hreads offset).inside part⟩

/-! ### Bytes and numbers -/

theorem u1 : Local Reader.u1 := by
  intro c b c' h
  unfold Reader.u1 at h
  split at h
  · next b₀ rest hrest =>
    obtain ⟨rfl, rfl⟩ := Prod.mk.inj (Except.ok.inj h)
    exact ⟨[b₀], hrest, fun offset => Reads.u1 offset b₀⟩
  · nomatch h

theorem u2 : Local Reader.u2 := by
  intro c n c' h
  unfold Reader.u2 at h
  split at h
  · next b₁ b₀ rest hrest =>
    obtain ⟨rfl, rfl⟩ := Prod.mk.inj (Except.ok.inj h)
    exact ⟨[b₁, b₀], hrest, fun offset rest => rfl⟩
  · nomatch h

theorem u4 : Local Reader.u4 := by
  intro c n c' h
  unfold Reader.u4 at h
  split at h
  · next b₃ b₂ b₁ b₀ rest hrest =>
    obtain ⟨rfl, rfl⟩ := Prod.mk.inj (Except.ok.inj h)
    exact ⟨[b₃, b₂, b₁, b₀], hrest, fun offset rest => rfl⟩
  · nomatch h

theorem bytes (n : Nat) : Local (Reader.bytes n) := by
  intro c bs c' h
  simp only [Reader.bytes] at h
  split at h
  · next hlen =>
    obtain ⟨rfl, rfl⟩ := Prod.mk.inj (Except.ok.inj h)
    refine ⟨c.rest.take n, (List.take_append_drop n c.rest).symm, fun offset => ?_⟩
    have hreads := Reads.bytes offset (c.rest.take n)
    rwa [hlen] at hreads
  · cases h

theorem skip (n : Nat) : Local (Reader.skip n) :=
  (bytes n).bind fun _ => pure ()

/-! ### Repetition -/

theorem times_go {r : Reader α} (hr : Local r) (n : Nat) (done : List α) :
    Local (times.go r n done) := by
  induction n generalizing done with
  | zero => exact pure done.reverse
  | succ n ih => exact hr.bind fun a => ih (a :: done)

theorem table {r : Reader α} (hr : Local r) : Local (Reader.table r) :=
  u2.bind fun n => hr.times_go n []

end Local

end Reader

open Reader (Local Reads)

/-! ### Parts of a class file -/

theorem Constant.local_readBody (index : Nat) (tag : Tag) : Local (readBody index tag) := by
  have hone (f : Nat → Constant) : Local (do return f (← Reader.u2)) :=
    Local.u2.bind fun n => .pure (f n)
  have htwo (f : Nat → Nat → Constant) : Local (do return f (← Reader.u2) (← Reader.u2)) :=
    Local.u2.bind fun m => hone (f m)
  have hskip (n : Nat) (c : Constant) : Local (do Reader.skip n; return c) :=
    (Local.skip n).bind fun _ => .pure c
  cases tag with
  | unusable => exact .pure _
  | utf8 =>
    exact Local.u2.bind fun n => (Local.bytes n).bind fun raw =>
      (Local.lift _).bind fun _ => .pure _
  | integer => exact hskip 4 _
  | float => exact hskip 4 _
  | long => exact hskip 8 _
  | double => exact hskip 8 _
  | methodHandle => exact Local.u1.bind fun b => hone (methodHandle b.toNat)
  | classInfo | string | methodType | moduleInfo | packageInfo => exact hone _
  | fieldref | methodref | interfaceMethodref | nameAndType | dynamic | invokeDynamic =>
    exact htwo _

theorem Constant.local_read (index : Nat) : Local (Constant.read index) := by
  refine Local.u1.bind fun b => ?_
  dsimp only
  split
  · exact .fail _
  · exact local_readBody index _

theorem ConstantPool.local_readSlots (count n : Nat) (slots : Array Constant) :
    Local (readSlots count n slots) := by
  fun_induction readSlots count n slots with
  | case1 slots => exact .pure slots
  | case2 slots =>
    refine (Constant.local_read _).bind fun c => ?_
    split
    · exact .fail _
    · exact .pure _
  | case3 n slots ih ih' =>
    refine (Constant.local_read _).bind fun c => ?_
    split
    · exact ih c
    · exact ih' c

theorem ConstantPool.local_read : Local ConstantPool.read := by
  refine Local.u2.bind fun count => ?_
  cases count with
  | zero => exact .fail _
  | succ n => exact (local_readSlots (n + 1) n _).bind fun slots => .pure _

section

variable (pool : ConstantPool)

theorem Attribute.local_foldTable {σ : Type}
    (add : σ → String → List UInt8 → Except Malformed σ) (start : σ) :
    Local (foldTable pool add start) := by
  refine Local.u2.bind fun n => ?_
  -- A body counts as a whole, whatever is made of it.
  induction n generalizing start with
  | zero => exact .pure start
  | succ n ih =>
    refine Local.u2.bind fun slot => Local.u4.bind fun length => (Local.bytes length).bind ?_
    exact fun body => (Local.lift _).bind fun name => (Local.lift _).bind fun seen => ih seen

theorem MemberHeader.local_read : Local (MemberHeader.read pool) := by
  refine Local.u2.bind fun access => Local.u2.bind fun name => Local.u2.bind fun descriptor => ?_
  exact (Local.lift _).bind fun _ => (Local.lift _).bind fun _ => .pure _

theorem Field.local_read : Local (Field.read pool) :=
  ((MemberHeader.local_read pool).inside _).bind fun _ =>
    ((Attribute.local_foldTable pool _ _).inside _).bind fun _ => .pure _

theorem Method.local_read : Local (Method.read pool) :=
  ((MemberHeader.local_read pool).inside _).bind fun _ =>
    ((Attribute.local_foldTable pool _ _).inside _).bind fun _ => .pure _

end

namespace ClassFile

/-- What a class file says in front of its members. -/
structure Head where
  minorVersion : Nat
  majorVersion : Nat
  pool : ConstantPool
  access : Nat
  name : String
  superName : String
  interfaces : List String

def readHead : Reader Head := do
  let found ← Reader.u4
  if found ≠ magic then Reader.fail (.badMagic found)
  let minorVersion ← Reader.u2
  let majorVersion ← Reader.u2
  let pool ← ConstantPool.read
  let access ← Reader.u2
  let name ← FilePart.thisClass.locate (pool.className (← Reader.u2))
  let superName ← FilePart.superClass.locate (pool.optionalClassName (← Reader.u2))
  let interfaces ← Reader.table do
    FilePart.interfaces.locate (pool.className (← Reader.u2))
  return { minorVersion, majorVersion, pool, access, name, superName, interfaces }

/-- The members and the attributes of a class. -/
def readMembers (head : Head) : Reader ClassFile := do
  let fields ← Reader.table (Field.read head.pool)
  let methods ← Reader.table (Method.read head.pool)
  let seen ← Attribute.foldTable head.pool (Attributes.add head.pool) ⟨"", "", []⟩
  return { minorVersion := head.minorVersion, majorVersion := head.majorVersion
           access := head.access, name := head.name, superName := head.superName
           interfaces := head.interfaces, signature := seen.signature
           sourceFile := seen.sourceFile, annotations := seen.annotations, fields, methods }

theorem read_eq : ClassFile.read = readHead >>= readMembers := by
  unfold ClassFile.read readHead
  rw [bind_assoc]
  refine bind_congr fun found => ?_
  split
  · rfl
  · simp only [bind_assoc, pure_bind]
    rfl

theorem local_readHead : Local readHead := by
  refine Local.u4.bind fun found => Local.ite (.fail _) ?_
  refine Local.u2.bind fun minorVersion => Local.u2.bind fun majorVersion => ?_
  refine ConstantPool.local_read.bind fun pool => Local.u2.bind fun access => ?_
  refine Local.u2.bind fun _ => (Local.lift _).bind fun name => ?_
  refine Local.u2.bind fun _ => (Local.lift _).bind fun superName => ?_
  exact (Local.table (Local.u2.bind fun _ => .lift _)).bind fun interfaces => .pure _

theorem local_readMembers (head : Head) : Local (readMembers head) :=
  (Field.local_read head.pool).table.bind fun _ => (Method.local_read head.pool).table.bind fun _ =>
    (Attribute.local_foldTable head.pool _ _).bind fun _ => .pure _

theorem local_read : Local ClassFile.read := by
  rw [read_eq]
  exact local_readHead.bind local_readMembers

/-! ### Whole files -/

/-- A class file in front of further bytes is one only if there are none. -/
theorem parse_append {data : List UInt8} {c : ClassFile} (h : Reads 0 ClassFile.read data c)
    (more : List UInt8) :
    parse (data ++ more) =
      if more = [] then .ok c else .error (.ofCause (.trailingBytes more.length)) := by
  unfold parse Reader.on
  show Except.map Prod.fst (ClassFile.read ⟨0, data ++ more⟩ >>= _) = _
  rw [h]
  cases more with
  | nil => rfl
  | cons b more => rfl

theorem reads_of_parse {data : List UInt8} {c : ClassFile} (h : parse data = .ok c) :
    Reads 0 ClassFile.read data c := by
  cases hread : ClassFile.read ⟨0, data⟩ with
  | error e =>
    unfold parse Reader.on at h
    change Except.map Prod.fst (ClassFile.read ⟨0, data⟩ >>= _) = _ at h
    rw [hread] at h
    nomatch h
  | ok x =>
    obtain ⟨used, hused, hreads⟩ := local_read _ _ _ hread
    -- What the reader has left would be too many bytes, so it has left none.
    change data = used ++ x.2.rest at hused
    have hparse := parse_append (hreads 0) x.2.rest
    rw [← hused, h] at hparse
    by_cases hrest : x.2.rest = []
    · rw [if_pos hrest] at hparse
      rw [hrest, List.append_nil] at hused
      rw [hused, Except.ok.inj hparse]
      exact hreads 0
    · rw [if_neg hrest] at hparse
      nomatch hparse

end ClassFile

end ClassAudit
