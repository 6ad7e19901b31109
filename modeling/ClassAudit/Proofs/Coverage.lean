import ClassAudit.Coverage
import ClassAudit.Proofs.ClassFile.Name
import ClassAudit.Proofs.Files.Walk

/-! # Missing tests of a tree without some classes

    Each class is looked at on its own: what is said about it depends on its own test only. So where
    the tests of the other classes are found or missed as before, and the classes that are left out
    are not reported, it does not matter whether these are there.
-/

namespace ClassAudit

variable {name : String} {start out missing : List MissingTest} {root : Path}

namespace FileTree

variable {gone : Location → Nat → Bool} {t t' : FileTree}

/-- A path that leads to something still does, and one that leads to nothing still leads to
    nothing. -/
def Agrees (t t' : FileTree) (path : Path) : Prop :=
  (∀ e, t.stat path = .ok e → ∃ e', t'.stat path = .ok e') ∧
    ∀ e, t.stat path = .error e → e.reason = .missing → t'.stat path = .error e

/-- Where no file is taken away that a path leads to, the path leads to something as before. -/
theorem Pruned.agrees (h : Pruned gone t t') {path : Path}
    (hkept : ∀ l number, t.Leads path l (.file number) → gone l number = false) :
    Agrees t t' path := by
  constructor
  · intro e hstat
    obtain ⟨l, htarget⟩ := exists_target_of_look hstat
    have hgone : e.isGone gone l = false := by
      cases e with
      | file number => exact hkept l number htarget
      | directory d => rfl
      | link target => rfl
    exact ⟨_, look_of_target (h.target_of_found htarget hgone)⟩
  · intro e hstat hmissing
    have hfile : t.target true false path ≠ .error .notDirectory := by
      intro heq
      rw [stat, look, heq] at hstat
      rw [← Except.error.inj hstat] at hmissing
      cases hmissing
    have htarget := h.target_eq hfile
    unfold stat look at hstat ⊢
    rw [htarget]
    split at hstat
    · rename_i reason herror
      rw [herror]
      exact hstat
    · rename_i l hfree
      rw [hfree]
      exact hstat
    · cases hstat

end FileTree

namespace MissingTest

open FileTree

variable {t t' : FileTree} {testClasses : Path} {suffix : ByteString} {exclude : List ByteString}

/-- The path of the test of a class. -/
def testPath (testClasses : Path) (suffix : ByteString) (cf : ClassFile) : Path :=
  Path.join [testClasses, (cf.name : ByteString) ++ suffix ++ (".class" : ByteString)]

/-- The path of a test does not lead upwards from the directory of tests if its suffix does not. -/
theorem above_not_mem_names (hname : '.' ∉ name.toList) (hsuffix : Path.above ∉ Path.names suffix) :
    Path.above ∉ Path.names ((name : ByteString) ++ suffix ++ (".class" : ByteString)) := by
  have hslash : Path.slash ∉ (".class" : ByteString).bytes := by decide +kernel
  have hlong : 2 < (".class" : ByteString).length := by decide +kernel
  exact Path.above_not_mem_names_test hname hsuffix hslash hlong

/-- A class adds nothing, or that its own test is missing, whatever has been found before. -/
theorem handler_eq_none {cf : ClassFile}
    (h : handler t testClasses suffix exclude start name cf = (out, none)) :
    ∃ added, (∀ m ∈ added, m.className = ClassName.binary cf.name) ∧ out = start ++ added ∧
      ∀ start', handler t testClasses suffix exclude start' name cf = (start' ++ added, none) := by
  unfold handler at h ⊢
  by_cases hneeded : isNeeded exclude cf
  · simp only [if_pos hneeded] at h ⊢
    split at h
    · obtain rfl := (Prod.mk.inj h).1
      exact ⟨[], by simp, by simp, by simp⟩
    · split at h
      · rename_i hmissing
        obtain rfl := (Prod.mk.inj h).1
        refine ⟨_, ?_, rfl, fun start' => if_pos hmissing⟩
        simp
      · cases h
  · simp only [if_neg hneeded] at h ⊢
    obtain rfl := (Prod.mk.inj h).1
    exact ⟨[], by simp, by simp, by simp⟩

/-- What is said about a class depends on the path of its test only. -/
theorem handler_agrees {cf : ClassFile} (hagrees : Agrees t t' (testPath testClasses suffix cf))
    (h : handler t testClasses suffix exclude start name cf = (out, none)) :
    handler t' testClasses suffix exclude start name cf = (out, none) := by
  obtain ⟨hfound, hmissing⟩ := hagrees
  unfold handler at h ⊢
  by_cases hneeded : isNeeded exclude cf
  · simp only [if_pos hneeded] at h ⊢
    unfold testPath at hfound hmissing
    split at h
    · rename_i e hstat
      obtain ⟨e', hstat'⟩ := hfound e hstat
      rw [hstat']
      exact h
    · rename_i e hstat
      split at h
      · rename_i hreason
        rw [hmissing e hstat hreason]
        simp only [if_pos hreason]
        exact h
      · cases h
  · simpa only [if_neg hneeded] using h

/-- Whether a missing test is reported in a project. -/
def isReported (c : Config) (m : MissingTest) : Bool :=
  !c.excludes (ClassName.internal m.className)

/-- A class file of a class whose name has no dots, and whose test is found or missed as before. -/
def Steady (t t' : FileTree) (testClasses : Path) (suffix : ByteString) (source : ClassSource) :
    Prop :=
  ∀ path name bytes cf, source = .readable path name bytes → ClassFile.parse bytes = .ok cf →
    '.' ∉ cf.name.toList ∧ Agrees t t' (testPath testClasses suffix cf)

/-- The tests that are reported as missing are the same without the classes that are left out. -/
theorem visitAll_filter_isReported {c : Config} {sources : List ClassSource}
    {start' : List MissingTest}
    (hsteady : ∀ source ∈ sources, Steady t t' testClasses suffix source)
    (hstart : start'.filter (isReported c) = start.filter (isReported c))
    (hall : ClassSource.visitAll (handler t testClasses suffix exclude) start sources =
      (out, none)) :
    ∃ out', ClassSource.visitAll (handler t' testClasses suffix exclude) start'
        (sources.filter (ClassSource.isKept c.dropsClass)) = (out', none) ∧
      out'.filter (isReported c) = out.filter (isReported c) := by
  induction sources generalizing start start' with
  | nil =>
    obtain rfl := (Prod.mk.inj hall).1
    exact ⟨start', rfl, hstart⟩
  | cons source sources ih =>
    have hothers : ∀ other ∈ sources, Steady t t' testClasses suffix other :=
      fun other hmem => hsteady other (List.mem_cons_of_mem _ hmem)
    obtain ⟨next, hvisit, hrest⟩ := ClassSource.visitAll_cons_eq_none.mp hall
    obtain ⟨path, name, bytes, cf, rfl, hparse, hhandler⟩ :=
      ClassSource.visit_eq_none.mp hvisit
    obtain ⟨hdot, hagrees⟩ := hsteady _ List.mem_cons_self path name bytes cf rfl hparse
    obtain ⟨added, hclass, rfl, hadds⟩ := handler_eq_none hhandler
    rw [List.filter_cons, ClassSource.isKept_readable hparse]
    by_cases hexcluded : c.excludes cf.name
    · -- What is said about a class that is left out is not reported.
      have hadded : added.filter (isReported c) = [] := by
        rw [List.filter_eq_nil_iff]
        intro m hm
        simp [isReported, hclass m hm, ClassName.internal_binary hdot, hexcluded]
      rw [if_neg (by simp [hexcluded])]
      exact ih hothers (by simp [hstart, hadded]) hrest
    · have hvisit' : ClassSource.visit (handler t' testClasses suffix exclude) start'
          (.readable path name bytes) = (start' ++ added, none) :=
        ClassSource.visit_eq_none.mpr
          ⟨path, name, bytes, cf, rfl, hparse, handler_agrees hagrees (hadds start')⟩
      have hnext : (start' ++ added).filter (isReported c) =
          (start ++ added).filter (isReported c) := by
        rw [List.filter_append, List.filter_append, hstart]
      obtain ⟨out', hout, hreported⟩ := ih hothers hnext hrest
      rw [if_pos (by simpa using hexcluded)]
      exact ⟨out', ClassSource.visitAll_cons_eq_none.mpr ⟨_, hvisit', hout⟩, hreported⟩

/-! ### Roots -/

/-- The suffix that is used for tests. -/
def usedSuffix (suffix : ByteString) : ByteString :=
  if suffix.isEmpty then .ofString defaultSuffix else suffix

theorem find_eq_ok :
    find t root testClasses suffix exclude = .ok missing ↔
      ClassSource.visitAll (handler t testClasses (usedSuffix suffix) exclude) []
        (ClassSource.ofRoot t root) = (missing, none) := by
  unfold find
  dsimp only [usedSuffix]
  constructor
  · intro h
    split at h
    · rename_i found hall
      rw [hall, Except.ok.inj h]
    · cases h
  · intro h
    rw [h]

/-- What is reported of a root, where its class files are those that are not left out. -/
theorem find_isReported {c : Config}
    (hsources : ClassSource.ofRoot t' root =
      (ClassSource.ofRoot t root).filter (ClassSource.isKept c.dropsClass))
    (hsteady : ∀ source ∈ ClassSource.ofRoot t root,
      Steady t t' testClasses (usedSuffix suffix) source)
    (hfind : find t root testClasses suffix exclude = .ok missing) :
    ∃ missing', find t' root testClasses suffix exclude = .ok missing' ∧
      missing'.filter (isReported c) = missing.filter (isReported c) := by
  obtain ⟨missing', hall, hreported⟩ :=
    visitAll_filter_isReported hsteady rfl (find_eq_ok.mp hfind)
  rw [← hsources] at hall
  exact ⟨missing', find_eq_ok.mpr hall, hreported⟩

theorem isReadable_of_find (hfind : find t root testClasses suffix exclude = .ok missing) :
    ∀ source ∈ ClassSource.ofRoot t root, source.isReadable :=
  ClassSource.isReadable_of_visitAll (find_eq_ok.mp hfind)

end MissingTest

end ClassAudit
