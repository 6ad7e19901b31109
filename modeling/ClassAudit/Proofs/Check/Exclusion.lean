import ClassAudit.Check
import ClassAudit.Files.Archive.Write
import ClassAudit.Proofs.Coverage
import ClassAudit.Proofs.Files.Writing

/-! # Classes that are left out of all checks

    A project leaves out classes by patterns for their names. Two of the checks skip such a class
    when they come to it, the third one looks for its test and drops what it finds. All three come
    to the same result as if the class files were not there at all.
-/

namespace ClassAudit

variable {root : Path} {l : Location} {sources : List (List ClassSource)}

open ClassSource FileTree

namespace Config

variable {c : Config} {t t' : FileTree}

/-! ### Removing the classes that are left out -/

/-- Whether a place is inside a directory that is a root of classes. -/
def isInside (c : Config) (t : FileTree) (l : Location) : Bool :=
  c.classes.any fun root =>
    match t.target true false root with
    | .ok (.found r (.directory _)) => r.isPrefixOf l
    | _ => false

/-- Whether a place is that of a class file in a directory that is a root of classes. -/
def isClassFile (c : Config) (t : FileTree) (l : Location) : Bool :=
  c.isInside t l && l.getLast?.any isClassName

/-- Whether a file is a class file in a directory that is a root, of a class that is left out. -/
def isLeftOut (c : Config) (t : FileTree) (l : Location) (number : Nat) : Bool :=
  c.isClassFile t l && c.dropsClass (t.content number).toList

/-- A tree is what is left of another one when all class files of classes that are left out are
    removed: their names from the directories that are roots, and their entries from the archives
    that are roots. Nothing else changes. -/
structure Removal (c : Config) (t t' : FileTree) : Prop where
  root : t'.root = t.root.prune (c.isLeftOut t) []
  current : t'.current = t.current
  archives : ∀ root ∈ c.classes, ∀ l number, t.Leads root l (.file number) →
    Archive.Without c.dropsClass ⟨root, t.content number⟩ ⟨root, t'.content number⟩
  others : ∀ number, (∀ root ∈ c.classes, ∀ l, ¬t.Leads root l (.file number)) →
    t'.content number = t.content number

/-- The classes of a project are kept apart from all else. -/
structure Apart (c : Config) (t : FileTree) : Prop where
  wellFormed : (FileEntry.directory t.root).WellFormed
  /-- A root that is no directory is an archive, and not under another name a class file in a
      directory. -/
  archives : ∀ root ∈ c.classes, ∀ l number, t.Leads root l (.file number) →
    isArchivePath root = true ∧ ∀ l', t.Holds l' (.file number) → c.isClassFile t l' = false
  /-- The clean path of a directory leads to the directory. -/
  directories : ∀ root ∈ c.classes, ∀ l d, t.Leads root l (.directory d) →
    t.Leads root.clean l (.directory d)
  /-- There are no dots in the names of classes. -/
  names : ∀ root ∈ c.classes, ∀ path name bytes cf, .readable path name bytes ∈ ofRoot t root →
    ClassFile.parse bytes = .ok cf → '.' ∉ cf.name.toList
  /-- No file of the tests lies in a directory of classes. -/
  tests : c.testClasses.isEmpty = false → ∀ path l number, Path.above ∉ path.names →
    t.Leads (Path.join [c.testClasses, path]) l (.file number) → c.isInside t l = false
  /-- The policy is neither a class file that is left out nor an archive of classes. -/
  policy : ∀ l number, t.Leads c.policy l (.file number) →
    c.isLeftOut t l number = false ∧ ∀ root ∈ c.classes, ∀ l', ¬t.Leads root l' (.file number)

theorem isInside_of_leads (hroot : root ∈ c.classes) {r : Location} {d : Directory}
    (hleads : t.Leads root r (.directory d)) (h : r <+: l) : c.isInside t l = true := by
  unfold isInside
  rw [List.any_eq_true]
  refine ⟨root, hroot, ?_⟩
  rw [Leads] at hleads
  rw [hleads]
  exact List.isPrefixOf_iff_prefix.mpr h

theorem Removal.pruned (hr : c.Removal t t') (hc : c.Apart t) : Pruned (c.isLeftOut t) t t' :=
  ⟨hc.wellFormed, hr.root, hr.current⟩

/-- In a directory that is a root, exactly the class files of classes that are left out are taken
    away. -/
theorem Removal.dropsBelow (hr : c.Removal t t') (hc : c.Apart t) (hroot : root ∈ c.classes)
    {r : Location} {d : Directory} (hleads : t.Leads root r (.directory d)) :
    DropsBelow c.dropsClass (c.isLeftOut t) t t' r where
  pruned := hr.pruned hc
  gone_eq {l} name number h := by
    have hinside : c.isInside t (l ++ [name]) = true :=
      isInside_of_leads hroot hleads (h.trans (List.prefix_append _ _))
    simp [isLeftOut, isClassFile, hinside]
  content_eq {l name number} h hclass hholds := by
    have hinside : c.isInside t (l ++ [name]) = true :=
      isInside_of_leads hroot hleads (h.trans (List.prefix_append _ _))
    have hfile : c.isClassFile t (l ++ [name]) = true := by
      simp [isClassFile, hinside, hclass]
    refine hr.others number fun archive harchive l' harchive' => ?_
    have hnot := (hc.archives archive harchive l' number harchive').2 _ hholds
    rw [hfile] at hnot
    cases hnot

/-- The class files of a root are those that are not left out, in the same order. -/
theorem Removal.ofRoot_eq (hr : c.Removal t t') (hc : c.Apart t) (hroot : root ∈ c.classes)
    (hread : ∀ source ∈ ofRoot t root, source.isReadable) :
    ofRoot t' root = (ofRoot t root).filter (isKept c.dropsClass) := by
  unfold ofRoot at hread ⊢
  cases hstat : t.stat root with
  | error e =>
    rw [hstat] at hread
    exact absurd (hread _ List.mem_cons_self) (by simp [isReadable])
  | ok entry =>
    rw [hstat] at hread
    obtain ⟨l, hleads⟩ := exists_target_of_look hstat
    cases entry with
    | directory d =>
      have hleads' := (hr.pruned hc).target_of_found hleads rfl
      rw [stat, look_of_target hleads']
      exact filter_ofDirectory (hr.dropsBelow hc hroot hleads) hleads
        (hc.directories root hroot l d hleads) hread
    | file number =>
      obtain ⟨harchive, hnot⟩ := hc.archives root hroot l number hleads
      have hgone : c.isLeftOut t l number = false := by
        simp [isLeftOut, hnot l (holds_of_target hleads)]
      have hleads' := (hr.pruned hc).target_of_found hleads hgone
      rw [FileEntry.prune] at hleads'
      rw [stat, look_of_target hleads']
      dsimp only at hread ⊢
      rw [if_pos harchive] at hread ⊢
      rw [if_pos harchive]
      exact filter_ofArchive hleads hleads' (hr.archives root hroot l number hleads) hread
    | link target => exact absurd hleads Leads.ne_link

theorem Removal.ofRoots_eq (hr : c.Removal t t') (hc : c.Apart t)
    (hread : ∀ source ∈ ofRoots t c.classes, source.isReadable) :
    ofRoots t' c.classes = (ofRoots t c.classes).filter (isKept c.dropsClass) := by
  unfold ofRoots at hread ⊢
  rw [List.filter_flatMap]
  refine List.flatMap_congr fun root hroot => hr.ofRoot_eq hc hroot fun source hsource => ?_
  exact hread source (List.mem_flatMap.mpr ⟨root, hroot, hsource⟩)

/-! ### What a check reads besides classes -/

theorem Removal.policy_load (hr : c.Removal t t') (hc : c.Apart t) {policy : Policy}
    (h : Policy.load t c.policy = .ok policy) : Policy.load t' c.policy = .ok policy := by
  unfold Policy.load at h
  split at h
  · cases h
  · rename_i e hlook
    split at h
    · cases h
    · rename_i format hformat
      split at h
      · cases h
      · rename_i bytes hread
        obtain ⟨l, number, hleads⟩ := exists_leads_of_read hread
        obtain ⟨hgone, hnot⟩ := hc.policy l number hleads
        have hleads' := (hr.pruned hc).leads hleads hgone
        rw [FileEntry.prune] at hleads'
        have hbytes : t'.read c.policy = .ok bytes := by
          rw [hleads'.read_eq, hr.others number hnot, ← hleads.read_eq, hread]
        rw [Policy.load, look_of_target hleads', hformat, hbytes]
        exact h

/-- The tests of classes stay where they are, unless the suffix leads out of the directory of
    tests. -/
theorem Removal.steady (hr : c.Removal t t') (hc : c.Apart t)
    (htests : c.testClasses.isEmpty = false) (hsuffix : Path.above ∉ Path.names c.coverageSuffix)
    (hroot : root ∈ c.classes) {source : ClassSource} (hsource : source ∈ ofRoot t root) :
    MissingTest.Steady t t' c.testClasses (MissingTest.usedSuffix c.coverageSuffix) source := by
  intro path name bytes cf hreadable hparse
  have hdot := hc.names root hroot path name bytes cf (hreadable ▸ hsource) hparse
  refine ⟨hdot, (hr.pruned hc).agrees fun l number hleads => ?_⟩
  have hused : Path.above ∉ Path.names (MissingTest.usedSuffix c.coverageSuffix) := by
    unfold MissingTest.usedSuffix
    split
    · decide +kernel
    · exact hsuffix
  have hinside := hc.tests htests _ l number (MissingTest.above_not_mem_names hdot hused) hleads
  simp [isLeftOut, isClassFile, hinside]

/-- Without links, the directory of tests is kept apart from the classes if no directory of classes
    lies in it, nor it in one of them. -/
theorem tests_of_disjoint {start : Place} (hlinks : t.root.hasLinks = false)
    (htests : c.testClasses.isEmpty = false) (hstart : t.start? c.testClasses = some start)
    (hdisjoint : ∀ root ∈ c.classes, ∀ r d, t.Leads root r (.directory d) →
      ¬r <+: c.testClasses.settled.foldl goTo (location start) ∧
        ¬c.testClasses.settled.foldl goTo (location start) <+: r) {path : Path} {number : Nat}
    (hpath : Path.above ∉ path.names)
    (hleads : t.Leads (Path.join [c.testClasses, path]) l (.file number)) :
    c.isInside t l = false := by
  have hbelow := hleads.prefix_of_join hlinks htests hstart hpath
  unfold isInside
  rw [List.any_eq_false]
  intro root hroot
  split
  · rename_i r d hroot'
    obtain ⟨hnot, hnot'⟩ := hdisjoint root hroot r d hroot'
    rw [List.isPrefixOf_iff_prefix]
    intro hprefix
    rcases List.prefix_or_prefix_of_prefix hprefix hbelow with h | h
    · exact hnot h
    · exact hnot' h
  · exact Bool.false_ne_true

end Config

/-! ### Checks -/

theorem except_bind_eq_ok {ε α β : Type} {x : Except ε α} {f : α → Except ε β} {b : β} :
    x >>= f = .ok b ↔ ∃ a, x = .ok a ∧ f a = .ok b := by
  cases x with
  | error e =>
    constructor
    · intro h
      cases h
    · rintro ⟨a, h, -⟩
      cases h
  | ok a =>
    constructor
    · exact fun h => ⟨a, rfl, h⟩
    · rintro ⟨a', h, hf⟩
      rw [Except.ok.inj h]
      exact hf

namespace Check

variable {c : Config} {t t' : FileTree} {lines : List String}

theorem callFindings_removal (hr : c.Removal t t') (hc : c.Apart t)
    (h : callFindings t c = .ok lines) : callFindings t' c = .ok lines := by
  unfold callFindings CallSite.search at h ⊢
  cases htargets : c.targetSet with
  | error e =>
    rw [htargets] at h
    cases h
  | ok targets =>
    rw [htargets] at h
    obtain ⟨sites, hcollect, hlines⟩ := except_bind_eq_ok.mp h
    dsimp only at hcollect ⊢
    rw [hr.ofRoots_eq hc (isReadable_of_collect hcollect), collect_filter hcollect]
    exact hlines

theorem importFindings_removal (hr : c.Removal t t') (hc : c.Apart t)
    (h : importFindings t c = .ok lines) : importFindings t' c = .ok lines := by
  unfold importFindings at h ⊢
  by_cases hempty : c.policy.isEmpty
  · rw [if_pos hempty] at h
    cases h
  · rw [if_neg hempty] at h ⊢
    obtain ⟨policy, hload, h⟩ := except_bind_eq_ok.mp h
    obtain ⟨imports, hcollect, hlines⟩ := except_bind_eq_ok.mp h
    refine except_bind_eq_ok.mpr ⟨policy, hr.policy_load hc hload, ?_⟩
    refine except_bind_eq_ok.mpr ⟨imports, ?_, hlines⟩
    rw [hr.ofRoots_eq hc (isReadable_of_collect hcollect)]
    exact collect_filter hcollect

theorem mapM_find_removal (hr : c.Removal t t') (hc : c.Apart t)
    (htests : c.testClasses.isEmpty = false)
    (hsuffix : Path.above ∉ Path.names c.coverageSuffix) {roots : List Path}
    (hroots : ∀ root ∈ roots, root ∈ c.classes) {missing : List (List MissingTest)}
    (h : (roots.mapM fun root => MissingTest.find t root c.testClasses c.coverageSuffix
      c.coverageExclude) = .ok missing) :
    ∃ missing', (roots.mapM fun root => MissingTest.find t' root c.testClasses c.coverageSuffix
        c.coverageExclude) = .ok missing' ∧
      missing'.flatten.filter (MissingTest.isReported c) =
        missing.flatten.filter (MissingTest.isReported c) := by
  induction roots generalizing missing with
  | nil =>
    obtain rfl : missing = [] := (Except.ok.inj h).symm
    exact ⟨[], rfl, rfl⟩
  | cons root roots ih =>
    rw [List.mapM_cons] at h
    obtain ⟨first, hfind, h⟩ := except_bind_eq_ok.mp h
    obtain ⟨rest, hrest, h⟩ := except_bind_eq_ok.mp h
    have hroot : root ∈ c.classes := hroots root List.mem_cons_self
    obtain ⟨first', hfind', hfirst⟩ := MissingTest.find_isReported
      (hr.ofRoot_eq hc hroot (MissingTest.isReadable_of_find hfind))
      (fun source hsource => hr.steady hc htests hsuffix hroot hsource) hfind
    obtain ⟨rest', hrest', hrest₀⟩ :=
      ih (fun other hmem => hroots other (List.mem_cons_of_mem _ hmem)) hrest
    refine ⟨first' :: rest', ?_, ?_⟩
    · rw [List.mapM_cons]
      exact except_bind_eq_ok.mpr ⟨first', hfind', except_bind_eq_ok.mpr ⟨rest', hrest', rfl⟩⟩
    · rw [← Except.ok.inj h, List.flatten_cons, List.flatten_cons, List.filter_append,
        List.filter_append, hfirst, hrest₀]

theorem testFindings_removal (hr : c.Removal t t') (hc : c.Apart t)
    (hsuffix : Path.above ∉ Path.names c.coverageSuffix)
    (h : testFindings t c = .ok lines) : testFindings t' c = .ok lines := by
  unfold testFindings at h ⊢
  by_cases hempty : c.testClasses.isEmpty
  · rw [if_pos hempty] at h
    cases h
  · rw [if_neg hempty] at h ⊢
    obtain ⟨missing, hmap, hlines⟩ := except_bind_eq_ok.mp h
    obtain ⟨missing', hmap', hreported⟩ :=
      mapM_find_removal hr hc (by simpa using hempty) hsuffix (fun _ hroot => hroot) hmap
    refine except_bind_eq_ok.mpr ⟨missing', hmap', ?_⟩
    unfold MissingTest.isReported at hreported
    rw [hreported]
    exact hlines

theorem ofRoots_of_map (h : c.classes.map (ofRoot t) = sources) :
    ofRoots t c.classes = sources.flatten := by
  rw [ofRoots, List.flatMap_def, h]

theorem callFindings_of_map (h : c.classes.map (ofRoot t) = sources) :
    callFindings t c = (do
      let targets ← c.targetSet.mapError .calls
      let sites ← collect c.handler .calls (CallSite.find targets) sources.flatten
      return sites.map CallSite.text) := by
  unfold callFindings CallSite.search
  rw [ofRoots_of_map h]
  cases c.targetSet <;> rfl

theorem testFindings_of_map (h : c.classes.map (ofRoot t) = sources) :
    testFindings t c = (do
      if c.testClasses.isEmpty then throw (.text "no test class directory configured")
      let suffix := if c.coverageSuffix.isEmpty then .ofString MissingTest.defaultSuffix
        else c.coverageSuffix
      let missing ← sources.mapM fun sources =>
        match visitAll (MissingTest.handler t c.testClasses suffix c.coverageExclude) [] sources with
        | (missing, none) => .ok missing
        | (_, some e) => .error e
      return (missing.flatten.filter (MissingTest.isReported c)).map MissingTest.text) := by
  subst h
  simp only [List.mapM_map]
  rfl

/-- Whether a check comes to a result, be it that it finds something or that it finds nothing. -/
def comesToResult (t : FileTree) (c : Config) (check : Check) : Bool :=
  match check.run t c with
  | none | some (.findings _ _) => true
  | some _ => false

theorem exists_findings {check : Check} (h : check.comesToResult t c = true) :
    ∃ lines, check.findings t c = .ok lines := by
  unfold comesToResult run at h
  cases hfindings : check.findings t c with
  | ok lines => exact ⟨lines, rfl⟩
  | error e =>
    rw [hfindings] at h
    cases h

/-- A check that comes to a result comes to the same result when the class files of all classes
    that are left out are removed. The suffix of tests must not lead out of their directory. -/
theorem run_removal (check : Check) (hc : c.Apart t)
    (hsuffix : check = coverage → Path.above ∉ Path.names c.coverageSuffix)
    (hr : c.Removal t t') (h : check.comesToResult t c = true) :
    check.run t' c = check.run t c := by
  obtain ⟨lines, hfindings⟩ := exists_findings h
  have hfindings' : check.findings t' c = .ok lines := by
    cases check with
    | calls => exact callFindings_removal hr hc hfindings
    | deps => exact importFindings_removal hr hc hfindings
    | coverage => exact testFindings_removal hr hc (hsuffix rfl) hfindings
  rw [run, run, hfindings, hfindings']

/-! ### A project with two directories and an archive -/

/-- The class file of a class without members. -/
def sampleClass (name : String) : List UInt8 :=
  [0xca, 0xfe, 0xba, 0xbe, 0, 0, 0, 52, 0, 3, 1, 0, .ofNat (Text.utf8 name).length] ++
    Text.utf8 name ++ [7, 0, 1, 0, 1, 0, 2, 0, 0, 0, 0, 0, 0, 0, 0, 0, 0]

/-- A project with all settings that leaves out a package. -/
def sampleProject (suffix : ByteString) : Config where
  classes := ["app", "lib", "lib.jar"]
  testClasses := "tests"
  policy := "policy.xml"
  forbiddenCalls := [⟨"java.lang.System", "void exit(int)"⟩]
  coverageSuffix := suffix
  coverageExclude := []
  exclude := ["p/*.class"]

/-- Of the three classes, only the one in the first directory is not left out. -/
def sampleTree : FileTree where
  root :=
    [("app", .directory [("A.class", .file 0)]),
      ("lib", .directory [("p", .directory [("B.class", .file 1)])]),
      ("lib.jar", .file 2), ("policy.xml", .file 3), ("tests", .directory [])]
  contents :=
    #[(sampleClass "A").toByteArray, (sampleClass "p/B").toByteArray,
      (Archive.pack [⟨"p/C.class", sampleClass "p/C", 0, 0⟩]).toByteArray,
      (Text.utf8 "<dependencies/>").toByteArray]
  current := []

/-- What is left without the classes that are left out. -/
def sampleRest : FileTree where
  root := sampleTree.root.prune ((sampleProject .empty).isLeftOut sampleTree) []
  contents := sampleTree.contents.setIfInBounds 2 (Archive.pack []).toByteArray
  current := []

/-- The class in the archive. -/
def sampleItem : ArchiveItem :=
  ⟨"p/C.class", false, .ok (sampleClass "p/C")⟩

/-- Whether the name of a class has no dots, if the class can be read. -/
def isDotless : ClassSource → Bool
  | .readable _ _ bytes =>
    match ClassFile.parse bytes with
    | .ok cf => !cf.name.toList.contains '.'
    | .error _ => true
  | .unreadable _ _ => true

theorem not_mem_of_isDotless {sources : List ClassSource} (h : sources.all isDotless = true)
    {path name : String} {bytes : List UInt8} {cf : ClassFile}
    (hsource : .readable path name bytes ∈ sources) (hparse : ClassFile.parse bytes = .ok cf) :
    '.' ∉ cf.name.toList := by
  have hdotless := List.all_eq_true.mp h _ hsource
  simpa [isDotless, hparse] using hdotless

/-- Where the paths of the project lead. -/
theorem paths_sample :
    (sampleTree.leadsToDirectory "app" ["app"] = true ∧ Path.clean "app" = "app") ∧
    (sampleTree.leadsToDirectory "lib" ["lib"] = true ∧ Path.clean "lib" = "lib") ∧
    (sampleTree.leadsToFile "lib.jar" ["lib.jar"] 2 = true ∧ isArchivePath "lib.jar" = true) ∧
    sampleTree.leadsToFile "policy.xml" ["policy.xml"] 3 = true ∧
    ∀ l ∈ ([["app"], ["lib"]] : List Location),
      ¬l <+: (Path.settled "tests").foldl goTo (location []) ∧
      ¬(Path.settled "tests").foldl goTo (location []) <+: l := by
  decide +kernel

theorem files_sample :
    ((FileEntry.directory sampleTree.root).isWellFormed = true ∧
      sampleTree.root.hasLinks = false) ∧
    (sampleProject .empty).isClassFile sampleTree ["lib.jar"] = false ∧
    (sampleProject .empty).isLeftOut sampleTree ["policy.xml"] 3 = false ∧
    (ofRoot sampleTree "app").all isDotless = true ∧
    (ofRoot sampleTree "lib").all isDotless = true := by
  decide +kernel

theorem items_sample :
    (Archive.mk "lib.jar" (sampleTree.content 2)).items = .ok [sampleItem] ∧
    (Archive.mk "lib.jar" (sampleRest.content 2)).items = .ok [] ∧
    sampleItem.isClass = true ∧ isDotless (sampleItem.source "lib.jar") = true ∧
    sampleItem.isDropped (sampleProject .empty).dropsClass = true := by
  decide +kernel

theorem leads_sample {suffix : ByteString} {e : FileEntry}
    (hroot : root ∈ (sampleProject suffix).classes) (h : sampleTree.Leads root l e) :
    (∃ d, e = .directory d ∧ root.clean = root ∧ (l = ["app"] ∨ l = ["lib"])) ∨
      root = "lib.jar" ∧ l = ["lib.jar"] ∧ e = .file 2 := by
  obtain ⟨⟨happ, hcleanApp⟩, ⟨hlib, hcleanLib⟩, ⟨hjar, -⟩, -⟩ := paths_sample
  simp only [sampleProject, List.mem_cons, List.not_mem_nil, or_false] at hroot
  rcases hroot with rfl | rfl | rfl
  · obtain ⟨d, hleads⟩ := exists_leads_directory happ
    obtain ⟨rfl, rfl⟩ := hleads.unique h
    exact .inl ⟨d, rfl, hcleanApp, .inl rfl⟩
  · obtain ⟨d, hleads⟩ := exists_leads_directory hlib
    obtain ⟨rfl, rfl⟩ := hleads.unique h
    exact .inl ⟨d, rfl, hcleanLib, .inr rfl⟩
  · obtain ⟨rfl, rfl⟩ := (leads_file hjar).unique h
    exact .inr ⟨rfl, rfl, rfl⟩

theorem ofRoot_sample : ofRoot sampleTree "lib.jar" = [sampleItem.source "lib.jar"] := by
  obtain ⟨-, -, ⟨hjar, harchive⟩, -⟩ := paths_sample
  obtain ⟨hitems, -, hclass, -⟩ := items_sample
  have hleads : sampleTree.Leads "lib.jar" ["lib.jar"] (.file 2) := leads_file hjar
  rw [ofRoot, stat, look_of_target hleads]
  dsimp only
  rw [if_pos harchive, ofArchive_eq hleads, hitems]
  simp [hclass]

/-- The archive is read here once, and not again by each check. -/
theorem roots_sample {suffix : ByteString} :
    (sampleProject suffix).classes.map (ofRoot sampleTree) =
      [ofRoot sampleTree "app", ofRoot sampleTree "lib", [sampleItem.source "lib.jar"]] := by
  rw [← ofRoot_sample]
  rfl

theorem apart_sample (suffix : ByteString) : (sampleProject suffix).Apart sampleTree where
  wellFormed := FileEntry.wellFormed_of_isWellFormed _ files_sample.1.1
  archives root hroot l number hleads := by
    rcases leads_sample hroot hleads with ⟨d, hfile, -⟩ | ⟨rfl, rfl, hfile⟩
    · cases hfile
    · obtain rfl := FileEntry.file.inj hfile
      obtain ⟨-, -, ⟨-, harchive⟩, -⟩ := paths_sample
      refine ⟨harchive, fun l' hholds => ?_⟩
      have hl : l' = ["lib.jar"] := by
        simpa [sampleTree, filesIn, filesOf] using hholds.mem_filesIn
      rw [hl]
      exact files_sample.2.1
  directories root hroot l d hleads := by
    rcases leads_sample hroot hleads with ⟨d, -, hclean, -⟩ | ⟨-, -, hfile⟩
    · rwa [hclean]
    · cases hfile
  names root hroot path name bytes cf hsource hparse := by
    obtain ⟨-, -, -, happ, hlib⟩ := files_sample
    obtain ⟨-, -, -, hjar, -⟩ := items_sample
    simp only [sampleProject, List.mem_cons, List.not_mem_nil, or_false] at hroot
    rcases hroot with rfl | rfl | rfl
    · exact not_mem_of_isDotless happ hsource hparse
    · exact not_mem_of_isDotless hlib hsource hparse
    · rw [ofRoot_sample] at hsource
      exact not_mem_of_isDotless (by simpa using hjar) hsource hparse
  tests htests path l number hpath hleads := by
    obtain ⟨-, -, -, -, hapart⟩ := paths_sample
    have hstart : sampleTree.start? "tests" = some [] := by
      unfold start?
      split <;> rfl
    have hdisjoint : ∀ root ∈ (sampleProject suffix).classes, ∀ r d,
        sampleTree.Leads root r (.directory d) →
          ¬r <+: (Path.settled "tests").foldl goTo (location []) ∧
            ¬(Path.settled "tests").foldl goTo (location []) <+: r := by
      intro root hroot r d hroot'
      rcases leads_sample hroot hroot' with ⟨-, -, -, hr⟩ | ⟨-, -, hfile⟩
      · exact hapart r (by simpa using hr)
      · cases hfile
    exact Config.tests_of_disjoint files_sample.1.2 htests hstart hdisjoint hpath hleads
  policy l number hleads := by
    obtain ⟨-, -, -, hpolicy, -⟩ := paths_sample
    obtain ⟨rfl, hnumber⟩ := (leads_file hpolicy).unique hleads
    obtain rfl := FileEntry.file.inj hnumber
    refine ⟨files_sample.2.2.1, fun root hroot l' hroot' => ?_⟩
    rcases leads_sample hroot hroot' with ⟨d, hfile, -⟩ | ⟨-, -, hfile⟩
    · cases hfile
    · exact absurd (FileEntry.file.inj hfile) (by decide)

theorem removal_sample (suffix : ByteString) :
    (sampleProject suffix).Removal sampleTree sampleRest where
  root := rfl
  current := rfl
  archives root hroot l number hleads := by
    rcases leads_sample hroot hleads with ⟨d, hfile, -⟩ | ⟨rfl, rfl, hfile⟩
    · cases hfile
    · obtain rfl := FileEntry.file.inj hfile
      intro items hitems
      obtain ⟨hsample, hrest, -, -, hdropped⟩ := items_sample
      obtain rfl := Except.ok.inj (hsample.symm.trans hitems)
      rw [hrest, List.filter_cons_of_neg]
      · rfl
      · rw [Bool.not_eq_true, Bool.not_eq_false']
        exact hdropped
  others number hothers := by
    have hne : number ≠ 2 := by
      rintro rfl
      obtain ⟨-, -, ⟨hjar, -⟩, -⟩ := paths_sample
      exact hothers "lib.jar" (by simp [sampleProject]) _ (leads_file hjar)
    simp [content, sampleRest, hne.symm]

theorem comesToResult_sample (check : Check) :
    check.comesToResult sampleTree (sampleProject .empty) = true := by
  cases check with
  | calls =>
    rw [comesToResult, run, findings, callFindings_of_map roots_sample]
    decide +kernel
  | deps =>
    rw [comesToResult, run, findings, importFindings, ofRoots_of_map roots_sample]
    decide +kernel
  | coverage =>
    rw [comesToResult, run, findings, testFindings_of_map roots_sample]
    decide +kernel

theorem run_removal_sample :
    (sampleProject .empty).Apart sampleTree ∧
      (sampleProject .empty).Removal sampleTree sampleRest ∧
      Path.above ∉ Path.names (sampleProject .empty).coverageSuffix ∧
      ∀ check : Check, check.comesToResult sampleTree (sampleProject .empty) = true ∧
        check.run sampleRest (sampleProject .empty) =
          check.run sampleTree (sampleProject .empty) := by
  have hsuffix : Path.above ∉ Path.names (sampleProject .empty).coverageSuffix := by
    decide +kernel
  refine ⟨apart_sample _, removal_sample _, hsuffix, fun check => ?_⟩
  exact ⟨comesToResult_sample check, run_removal check (apart_sample _) (fun _ => hsuffix)
    (removal_sample _) (comesToResult_sample check)⟩

/-- With a suffix that leads out of the directory of tests, a class that is left out can stand for
    the test of another one, and its removal is seen. -/
theorem suffix_above_shows_removal : ∃ (c : Config) (t t' : FileTree), c.Apart t ∧
    c.Removal t t' ∧ coverage.comesToResult t c = true ∧
      coverage.run t' c ≠ coverage.run t c := by
  have hrun : (coverage.run sampleTree (sampleProject "/../../lib/p/B")).isNone = true := by
    rw [run, findings, testFindings_of_map roots_sample]
    decide +kernel
  have hrest : (coverage.run sampleRest (sampleProject "/../../lib/p/B")).isNone = false := by
    decide +kernel
  refine ⟨sampleProject "/../../lib/p/B", sampleTree, sampleRest, apart_sample _,
    removal_sample _, ?_, ?_⟩
  · rw [comesToResult, Option.isNone_iff_eq_none.mp hrun]
  · intro heq
    rw [heq, hrun] at hrest
    cases hrest

end Check

end ClassAudit
