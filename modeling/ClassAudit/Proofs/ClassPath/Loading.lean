import ClassAudit.ClassPath.Overrides
import ClassAudit.Proofs.ClassFile.Prefix

/-! # Loading classes

    A class path is coherent if its cache holds what would be found without it. A new class path is
    coherent and stays so, and then loading a class is finding it.

    Only finitely many classes can be found: each is the content of a file, or of an entry of an
    archive. A class has a bounded number of supertypes, and so `ClassPath.nameLimit` bounds the
    number of names that all classes of a class path refer to.
-/

namespace ClassAudit

variable {name : String} {t : FileTree} {cp : ClassPath} {cf : ClassFile} {bytes : List UInt8}
  {roots : List ClassRoot}

/-! ### Caches -/

namespace Cache

variable {α : Type}

/-- The entry that becomes the latest replaces only the one with its name. -/
theorem lookup_renewed (entries : List (String × α)) (name other : String) (a : α) :
    ((name, a) :: entries.filter (·.1 ≠ name)).lookup other =
      if other = name then some a else entries.lookup other := by
  by_cases h : other = name
  · rw [if_pos h, List.lookup_cons, beq_iff_eq.mpr h]
  · rw [if_neg h, List.lookup_cons, beq_false_of_ne h]
    show (entries.filter (·.1 ≠ name)).lookup other = entries.lookup other
    induction entries with
    | nil => rfl
    | cons entry entries ih =>
      by_cases hkey : entry.1 = name
      · have hne : other ≠ entry.1 := by rwa [hkey]
        rw [List.filter_cons_of_neg (by simpa using hkey), List.lookup_cons, beq_false_of_ne hne]
        exact ih
      · rw [List.filter_cons_of_pos (by simpa using hkey), List.lookup_cons, List.lookup_cons, ih]

theorem lookup_of_take {entries : List (String × α)} {n : Nat} {a : α}
    (h : (entries.take n).lookup name = some a) : entries.lookup name = some a := by
  induction entries generalizing n with
  | nil => simp at h
  | cons entry entries ih =>
    cases n with
    | zero => simp at h
    | succ n =>
      rw [List.take_succ_cons, List.lookup_cons] at h
      rw [List.lookup_cons]
      split at h
      · exact h
      · exact ih h

end Cache

/-! ### Coherent class paths -/

namespace ClassPath

/-- The cache holds what is found without it. -/
def Coherent (t : FileTree) (cp : ClassPath) : Prop :=
  ∀ name cf, cp.cache.entries.lookup name = some cf → find t name cp.roots = .ok cf

theorem entries_ofRoots {size : Int} {paths : List Path} (h : ofRoots t size paths = .ok cp) :
    cp.cache.entries = [] := by
  unfold ofRoots at h
  split at h
  · nomatch h
  · cases hroots : paths.mapM (ClassRoot.ofPath t) with
    | error e =>
      rw [hroots] at h
      nomatch h
    | ok roots =>
      rw [hroots] at h
      rw [← Except.ok.inj h]
      rfl

theorem coherent_ofRoots {size : Int} {paths : List Path} (h : ofRoots t size paths = .ok cp) :
    cp.Coherent t := by
  intro name cf hlookup
  rw [entries_ofRoots h] at hlookup
  nomatch hlookup

/-- Loading a class is finding it, and it leaves a coherent class path with the same roots. -/
theorem load_spec (h : cp.Coherent t) (name : String) :
    ∃ cp', cp.load t name = (find t name cp.roots, cp') ∧ cp'.roots = cp.roots ∧
      cp'.Coherent t := by
  unfold load Cache.get?
  cases hlookup : cp.cache.entries.lookup name with
  | some cf =>
    have hfind := h name cf hlookup
    rw [hfind]
    refine ⟨_, rfl, rfl, ?_⟩
    intro other cf' hother
    rw [Cache.lookup_renewed] at hother
    split at hother
    · next heq =>
      rw [heq, ← Option.some.inj hother]
      exact hfind
    · exact h other cf' hother
  | none =>
    cases hfind : find t name cp.roots with
    | error e => exact ⟨cp, rfl, rfl, h⟩
    | ok cf =>
      refine ⟨_, rfl, rfl, ?_⟩
      intro other cf' hother
      have hother' := Cache.lookup_of_take hother
      rw [Cache.lookup_renewed] at hother'
      split at hother'
      · next heq =>
        rw [heq, ← Option.some.inj hother']
        exact hfind
      · exact h other cf' hother'

theorem coherent_load (h : cp.Coherent t) (name : String) : (cp.load t name).2.Coherent t := by
  obtain ⟨cp', hload, -, hcp'⟩ := load_spec h name
  rw [hload]
  exact hcp'

end ClassPath

/-! ### The number of supertypes -/

namespace Reader

variable {α β : Type}
variable {r : Reader α}

/-- Whatever the reader gives has a property. -/
def Ensures (r : Reader α) (p : α → Prop) : Prop :=
  ∀ c a c', r c = .ok (a, c') → p a

theorem Ensures.pure {p : α → Prop} {a : α} (h : p a) : Ensures (Pure.pure a) p := by
  intro c a' c' hok
  rw [← (Prod.mk.inj (Except.ok.inj hok)).1]
  exact h

theorem Ensures.bind {f : α → Reader β} {p : α → Prop} {q : β → Prop} (hr : Ensures r p)
    (hf : ∀ a, p a → Ensures (f a) q) : Ensures (r >>= f) q := by
  intro c b c'' hok
  obtain ⟨a, c', hfirst, hsecond⟩ := bind_eq_ok hok
  exact hf a (hr c a c' hfirst) c' b c'' hsecond

/-- The property may come from the last reader alone. -/
theorem Ensures.after {f : α → Reader β} {q : β → Prop} (hf : ∀ a, Ensures (f a) q) :
    Ensures (r >>= f) q :=
  Ensures.bind (p := fun _ => True) (fun _ _ _ _ => trivial) fun a _ => hf a

theorem Ensures.ite {p : Prop} [Decidable p] {r' : Reader α} {q : α → Prop} (hr : Ensures r q)
    (hr' : Ensures r' q) : Ensures (if p then r else r') q := by
  split
  · exact hr
  · exact hr'

theorem ensures_fail (cause : MalformedCause) (p : α → Prop) : Ensures (fail cause) p := by
  intro c a c' hok
  nomatch hok

theorem ensures_u2 : Ensures u2 (· < 0x10000) := by
  intro c n c' hok
  unfold u2 at hok
  split at hok
  · next b₁ b₀ rest hrest =>
    rw [← (Prod.mk.inj (Except.ok.inj hok)).1]
    have h₁ := b₁.toNat_lt
    have h₀ := b₀.toNat_lt
    omega
  · nomatch hok

theorem ensures_times_go (r : Reader α) (n : Nat) (done : List α) :
    Ensures (times.go r n done) (·.length = n + done.length) := by
  induction n generalizing done with
  | zero => exact .pure (by simp)
  | succ n ih =>
    refine .after fun a => ?_
    have h := ih (a :: done)
    rw [List.length_cons, ← Nat.add_assoc, Nat.add_right_comm] at h
    exact h

theorem ensures_table (r : Reader α) : Ensures (table r) (·.length < 0x10000) := by
  refine ensures_u2.bind fun n hn => ?_
  intro c rows c' hok
  have hlength := ensures_times_go r n [] c rows c' hok
  rw [List.length_nil, Nat.add_zero] at hlength
  omega

end Reader

namespace ClassFile

open Reader (Ensures)

theorem ensures_readHead : Ensures readHead (·.interfaces.length < 0x10000) := by
  refine .after fun found => .ite (Reader.ensures_fail _ _) ?_
  refine .after fun minorVersion => .after fun majorVersion => .after fun pool => ?_
  refine .after fun access => .after fun _ => .after fun name => ?_
  refine .after fun _ => .after fun superName => ?_
  exact (Reader.ensures_table _).bind fun interfaces h => .pure h

theorem ensures_readMembers (head : Head) :
    Ensures (readMembers head) (·.interfaces = head.interfaces) :=
  .after fun _ => .after fun _ => .after fun _ => .pure rfl

theorem ensures_read : Ensures ClassFile.read (·.interfaces.length < 0x10000) := by
  rw [read_eq]
  refine ensures_readHead.bind fun head hhead => ?_
  intro c cf c' hok
  rw [ensures_readMembers head c cf c' hok]
  exact hhead

theorem length_supertypes_le {data : List UInt8} (h : parse data = .ok cf) :
    cf.supertypes.length ≤ ClassPath.supertypeLimit := by
  have hinterfaces := ensures_read _ _ _ (reads_of_parse h [])
  unfold supertypes ClassPath.supertypeLimit
  split <;> simp <;> omega

end ClassFile

/-! ### The classes of a class path -/

/-- The class that a byte string holds, if it is one. -/
def ClassFile.ofBytes? (data : List UInt8) : Option ClassFile :=
  (parse data).toOption

theorem ClassFile.ofBytes?_eq_some {data : List UInt8} :
    ofBytes? data = some cf ↔ parse data = .ok cf := by
  unfold ofBytes?
  cases parse data <;> simp [Except.toOption]

/-- The classes in the entries of an archive. -/
def ClassRoot.archived (t : FileTree) : ClassRoot → List ClassFile
  | .directory _ => []
  | .archive path number index => index.filterMap fun entry =>
    (entry.2.file.read ⟨path, t.content number⟩).toOption.bind ClassFile.ofBytes?

namespace ClassPath

/-- All classes in files and in entries of the archives of a class path. -/
def classes (t : FileTree) (roots : List ClassRoot) : List ClassFile :=
  t.contents.toList.filterMap (fun data => ClassFile.ofBytes? data.toList) ++
    roots.flatMap (ClassRoot.archived t)

theorem length_classes_le (t : FileTree) (roots : List ClassRoot) :
    (classes t roots).length ≤
      t.contents.size + roots.foldr (fun root total => root.entryCount + total) 0 := by
  have harchived : (roots.flatMap (ClassRoot.archived t)).length ≤
      roots.foldr (fun root total => root.entryCount + total) 0 := by
    induction roots with
    | nil => exact Nat.le_refl 0
    | cons root roots ih =>
      rw [List.flatMap_cons, List.length_append, List.foldr_cons]
      refine Nat.add_le_add ?_ ih
      cases root with
      | directory path => exact Nat.le_refl 0
      | archive path number index => exact List.length_filterMap_le _ _
  rw [classes, List.length_append]
  exact Nat.add_le_add (List.length_filterMap_le _ _) harchived

/-- The bytes of a file are the content of some file of the tree, if there are any. -/
theorem exists_content_of_read {path : Path} (h : t.read path = .ok bytes) :
    bytes = [] ∨ ∃ data ∈ t.contents.toList, bytes = data.toList := by
  unfold FileTree.read at h
  cases hnumber : t.fileNumber path with
  | error e =>
    rw [hnumber] at h
    nomatch h
  | ok number =>
    rw [hnumber] at h
    have hbytes : (t.contents[number]?.getD ByteArray.empty).toList = bytes := Except.ok.inj h
    cases hdata : t.contents[number]? with
    | none =>
      left
      rw [← hbytes, hdata, Option.getD_none, ByteArray.toList_empty]
    | some data =>
      right
      rw [hdata, Option.getD_some] at hbytes
      exact ⟨data, Array.mem_toList_iff.mpr (Array.mem_of_getElem? hdata), hbytes.symm⟩

theorem read_of_bytes {path : Path}
    (h : (ClassRoot.directory path).bytes t name = .ok (some bytes)) :
    t.read ((ClassRoot.directory path).classPath name) = .ok bytes := by
  simp only [ClassRoot.bytes] at h
  split at h
  · next bytes' hread =>
    rw [hread, Option.some.inj (Except.ok.inj h)]
  · split at h
    · nomatch h
    · nomatch h

theorem exists_entry_of_bytes {index : ArchiveIndex} {a : Archive} {name : Path}
    (h : index.bytes a name = .ok (some bytes)) :
    ∃ entry ∈ index, entry.2.file.read a = .ok bytes := by
  simp only [ArchiveIndex.bytes] at h
  split at h
  · split at h
    · next e hlookup =>
      obtain ⟨front, back, hindex, -⟩ := List.lookup_eq_some_iff.mp hlookup
      refine ⟨(name, e), by rw [hindex]; simp, ?_⟩
      split at h
      · nomatch h
      · cases hread : e.file.read a with
        | error e =>
          rw [hread] at h
          nomatch h
        | ok bytes' =>
          rw [hread] at h
          rw [Option.some.inj (Except.ok.inj h)]
    · split at h
      · nomatch h
      · nomatch h
  · nomatch h

theorem mem_classes_of_find (h : find t name roots = .ok cf) : cf ∈ classes t roots := by
  induction roots with
  | nil => nomatch h
  | cons root roots ih =>
    rw [find] at h
    split at h
    · nomatch h
    · have hlater := ih h
      simp only [classes, List.flatMap_cons, List.mem_append] at hlater ⊢
      exact hlater.imp_right .inr
    · next bytes hbytes =>
      split at h
      · next cf' hparse =>
        obtain rfl := Except.ok.inj h
        have hclass := ClassFile.ofBytes?_eq_some.mpr hparse
        unfold classes
        rw [List.mem_append]
        cases root with
        | directory path =>
          left
          rcases exists_content_of_read (read_of_bytes hbytes) with hnil | ⟨data, hdata, hbytes⟩
          · rw [hnil] at hparse
            nomatch hparse
          · rw [hbytes] at hclass
            exact List.mem_filterMap.mpr ⟨data, hdata, hclass⟩
        | archive path number index =>
          right
          obtain ⟨entry, hentry, hread⟩ := exists_entry_of_bytes hbytes
          rw [List.flatMap_cons, List.mem_append]
          left
          refine List.mem_filterMap.mpr ⟨entry, hentry, ?_⟩
          rw [hread]
          exact hclass
      · nomatch h

theorem parse_of_mem_classes (h : cf ∈ classes t roots) :
    ∃ data, ClassFile.parse data = .ok cf := by
  rcases List.mem_append.mp h with h | h
  · obtain ⟨data, -, hclass⟩ := List.mem_filterMap.mp h
    exact ⟨data.toList, ClassFile.ofBytes?_eq_some.mp hclass⟩
  · obtain ⟨root, -, hroot⟩ := List.mem_flatMap.mp h
    cases root with
    | directory path => nomatch hroot
    | archive path number index =>
      obtain ⟨entry, -, hentry⟩ := List.mem_filterMap.mp hroot
      obtain ⟨data, -, hclass⟩ := Option.bind_eq_some_iff.mp hentry
      exact ⟨data, ClassFile.ofBytes?_eq_some.mp hclass⟩

/-- The names that the classes of a class path refer to. -/
def referredNames (t : FileTree) (roots : List ClassRoot) : List String :=
  (classes t roots).flatMap ClassFile.supertypes

theorem mem_referredNames {other : String} (h : find t name roots = .ok cf)
    (hother : other ∈ cf.supertypes) : other ∈ referredNames t roots :=
  List.mem_flatMap.mpr ⟨cf, mem_classes_of_find h, hother⟩

/-- Classes that come from files do not refer to more names than two bytes can count for each. -/
theorem length_flatMap_supertypes_le {cfs : List ClassFile}
    (h : ∀ cf ∈ cfs, ∃ data, ClassFile.parse data = .ok cf) :
    (cfs.flatMap ClassFile.supertypes).length ≤ supertypeLimit * cfs.length := by
  induction cfs with
  | nil => exact Nat.le_refl 0
  | cons cf cfs ih =>
    obtain ⟨⟨data, hparse⟩, hcfs⟩ := List.forall_mem_cons.mp h
    have hfirst := ClassFile.length_supertypes_le hparse
    have hrest := ih hcfs
    rw [List.flatMap_cons, List.length_append, List.length_cons, Nat.mul_succ]
    omega

theorem length_referredNames_le (t : FileTree) (cp : ClassPath) :
    (referredNames t cp.roots).length ≤ cp.nameLimit t := by
  have hclasses := length_classes_le t cp.roots
  calc (referredNames t cp.roots).length
      ≤ supertypeLimit * (classes t cp.roots).length :=
        length_flatMap_supertypes_le fun _ => parse_of_mem_classes
    _ ≤ cp.nameLimit t := Nat.mul_le_mul_left _ (by omega)

end ClassPath

end ClassAudit
