import ClassAudit.Files.Archive.Write
import ClassAudit.Proofs.Files.Listing

/-! # Walks are complete

    A walk hands the classes of its roots to a handler, in their order and each of them once, and
    ends with the first one that cannot be read, that is no class, or that the handler refuses. The
    error names it. If there is no error, the handler has taken all classes there are.

    To see with which classes a handler is called, it writes them down (`Handler.recorded`).
-/

namespace ClassAudit

/-- A handler that also writes down the classes with which it is called. -/
def Handler.recorded {σ : Type} (h : Handler σ) : Handler (σ × List (String × ClassFile)) :=
  fun (s, calls) name cf => (((h s name cf).1, calls ++ [(name, cf)]), (h s name cf).2)

namespace ClassSource

variable {σ : Type} {h : Handler σ} {s s' next : σ} {source : ClassSource}

/-! ### One class file -/

/-- The path that errors name. -/
def path : ClassSource → String
  | .readable path _ _ => path
  | .unreadable path _ => path

/-- The class in a class file, and the name that is handed on with it. -/
inductive Parses : ClassSource → String × ClassFile → Prop
  | readable {path name : String} {bytes : List UInt8} {cf : ClassFile}
    (h : ClassFile.parse bytes = .ok cf) : Parses (.readable path name bytes) (name, cf)

/-- Why a class file gives no class. -/
inductive Fails : ClassSource → Failure → Prop
  | unreadable {path : String} {cause : Failure} : Fails (.unreadable path cause) cause
  | malformed {path name : String} {bytes : List UInt8} {e : Malformed}
    (h : ClassFile.parse bytes = .error e) : Fails (.readable path name bytes) (.malformed e)

theorem parses_or_fails (source : ClassSource) :
    (∃ call, source.Parses call) ∨ ∃ cause, source.Fails cause := by
  cases source with
  | unreadable path cause => exact .inr ⟨cause, .unreadable⟩
  | readable path name bytes =>
    cases hparse : ClassFile.parse bytes with
    | ok cf => exact .inl ⟨(name, cf), .readable hparse⟩
    | error e => exact .inr ⟨_, .malformed hparse⟩

theorem Fails.visit_eq {cause : Failure} (hfails : source.Fails cause) (h : Handler σ) (s : σ) :
    source.visit h s = (s, some (.classFile source.path cause)) := by
  cases hfails with
  | unreadable => rfl
  | malformed hparse =>
    rw [visit, hparse]
    rfl

theorem Parses.visit_eq {call : String × ClassFile} (hparses : source.Parses call)
    (h : Handler σ) (s : σ) :
    source.visit h s =
      ((h s call.1 call.2).1, (h s call.1 call.2).2.map (.within ("walk: " ++ source.path))) := by
  cases hparses with
  | @readable path name bytes cf hparse =>
    rw [visit, hparse]
    dsimp only
    cases h s name cf with
    | mk next refusal =>
      cases refusal with
      | none => rfl
      | some e => rfl

/-! ### All class files -/

/-- The handler takes classes one after the other. -/
inductive Takes (h : Handler σ) : σ → List (String × ClassFile) → σ → Prop
  | nil {s : σ} : Takes h s [] s
  | cons {s next s' : σ} {call : String × ClassFile} {calls : List (String × ClassFile)}
    (hcall : h s call.1 call.2 = (next, none)) (hcalls : Takes h next calls s') :
    Takes h s (call :: calls) s'

/-- How a walk through class files ends, with which classes it has called the handler, and in which
    state that has left it. -/
inductive Ends (h : Handler σ) (s : σ) (sources : List ClassSource) :
    List (String × ClassFile) → σ → Option Failure → Prop
  /-- The handler has taken the classes of all of them. -/
  | all {calls : List (String × ClassFile)} {s' : σ}
    (hparses : List.Forall₂ Parses sources calls) (htakes : Takes h s calls s') :
    Ends h s sources calls s' none
  /-- One of them gives no class. -/
  | unread {before after : List ClassSource} {source : ClassSource} {cause : Failure}
    {calls : List (String × ClassFile)} {s' : σ} (hsources : sources = before ++ source :: after)
    (hparses : List.Forall₂ Parses before calls) (htakes : Takes h s calls s')
    (hfails : source.Fails cause) :
    Ends h s sources calls s' (some (.classFile source.path cause))
  /-- The handler refuses the class of one of them. -/
  | refused {before after : List ClassSource} {source : ClassSource} {e : Failure}
    {calls : List (String × ClassFile)} {call : String × ClassFile} {s' s'' : σ}
    (hsources : sources = before ++ source :: after)
    (hparses : List.Forall₂ Parses before calls) (htakes : Takes h s calls s')
    (hcall : source.Parses call) (hrefused : h s' call.1 call.2 = (s'', some e)) :
    Ends h s sources (calls ++ [call]) s'' (some (.within ("walk: " ++ source.path) e))

/-- A class file in front, whose class the handler takes. -/
theorem Ends.cons {sources : List ClassSource} {call : String × ClassFile}
    {calls : List (String × ClassFile)} {result : Option Failure} (hparses : source.Parses call)
    (hcall : h s call.1 call.2 = (next, none)) (hends : Ends h next sources calls s' result) :
    Ends h s (source :: sources) (call :: calls) s' result := by
  cases hends with
  | all hall htakes => exact .all (.cons hparses hall) (.cons hcall htakes)
  | unread hsources hbefore htakes hfails =>
    rw [hsources]
    exact .unread (List.cons_append).symm (.cons hparses hbefore) (.cons hcall htakes) hfails
  | refused hsources hbefore htakes hlast hrefused =>
    rw [hsources]
    exact .refused (List.cons_append).symm (.cons hparses hbefore) (.cons hcall htakes) hlast
      hrefused

theorem visitAll_ends (h : Handler σ) (s : σ) (sources : List ClassSource) :
    ∃ calls s' result, Ends h s sources calls s' result ∧
      visitAll h s sources = (s', result) ∧
      ∀ before, visitAll h.recorded (s, before) sources = ((s', before ++ calls), result) := by
  induction sources generalizing s with
  | nil =>
    refine ⟨[], s, none, .all .nil .nil, rfl, fun before => ?_⟩
    rw [List.append_nil]
    rfl
  | cons source sources ih =>
    rcases source.parses_or_fails with ⟨call, hparses⟩ | ⟨cause, hfails⟩
    · have hvisit := hparses.visit_eq h s
      have hrecorded := fun before => hparses.visit_eq h.recorded (s, before)
      cases hcall : h s call.1 call.2 with
      | mk next refusal =>
        rw [hcall] at hvisit
        simp only [Handler.recorded, hcall] at hrecorded
        cases refusal with
        | some e =>
          -- The refused class is the last one with which the handler is called.
          refine ⟨[call], next, _, .refused (List.nil_append _).symm .nil .nil hparses hcall, ?_,
            fun before => ?_⟩
          · rw [visitAll, hvisit]
            rfl
          · rw [visitAll, hrecorded]
            rfl
        | none =>
          obtain ⟨calls, s', result, hends, hrun, hruns⟩ := ih next
          refine ⟨call :: calls, s', result, hends.cons hparses hcall, ?_, fun before => ?_⟩
          · rw [visitAll, hvisit]
            exact hrun
          · rw [visitAll, hrecorded]
            have hrest := hruns (before ++ [call])
            rw [List.append_assoc] at hrest
            exact hrest
    · -- There is no class to call the handler with.
      refine ⟨[], s, _, .unread (List.nil_append _).symm .nil .nil hfails, ?_, fun before => ?_⟩
      · rw [visitAll, hfails.visit_eq]
      · rw [visitAll, hfails.visit_eq, List.append_nil]

theorem visitAll_of_takes {sources : List ClassSource} {calls : List (String × ClassFile)}
    (hparses : List.Forall₂ Parses sources calls) (htakes : Takes h s calls s') :
    visitAll h s sources = (s', none) := by
  induction hparses generalizing s with
  | nil =>
    cases htakes
    rfl
  | cons hfirst _ ih =>
    cases htakes with
    | cons hcall htakes =>
      rw [visitAll, hfirst.visit_eq, hcall]
      exact ih htakes

/-- A walk has no error if and only if the handler takes the classes of all class files. -/
theorem visitAll_eq_none_iff {sources : List ClassSource} :
    visitAll h s sources = (s', none) ↔
      ∃ calls, List.Forall₂ Parses sources calls ∧ Takes h s calls s' := by
  constructor
  · intro hall
    obtain ⟨calls, final, result, hends, hrun, -⟩ := visitAll_ends h s sources
    obtain ⟨rfl, rfl⟩ := Prod.mk.inj (hrun.symm.trans hall)
    cases hends with
    | all hparses htakes => exact ⟨calls, hparses, htakes⟩
  · rintro ⟨calls, hparses, htakes⟩
    exact visitAll_of_takes hparses htakes

/-- **Walks are complete.** The class files of some roots are given by the tree, and a walk hands
    their classes to the handler up to the first failure. It ends without an error if and only if
    the handler takes the classes of all of them. -/
theorem visitAll_complete {t : FileTree} (hregular : t.root.isRegular = true) {roots : List Path}
    (hroots : ∀ root ∈ roots, IsRoot t root) (h : Handler σ) (s : σ) :
    ∃ sources, (∀ listed, Enumerates t roots listed ↔ listed = sources) ∧
      ∃ calls s' result, Ends h s sources calls s' result ∧
        visitAll h s (ofRoots t roots) = (s', result) ∧
        visitAll h.recorded (s, []) (ofRoots t roots) = ((s', calls), result) ∧
        (result = none ↔ ∃ all final, List.Forall₂ Parses sources all ∧ Takes h s all final) := by
  have henumerates := enumerates_ofRoots hregular hroots
  refine ⟨ofRoots t roots, fun listed => ⟨fun hlisted => hlisted.unique henumerates, ?_⟩, ?_⟩
  · rintro rfl
    exact henumerates
  · obtain ⟨calls, s', result, hends, hrun, hruns⟩ := visitAll_ends h s (ofRoots t roots)
    refine ⟨calls, s', result, hends, hrun, hruns [], ?_, ?_⟩
    · rintro rfl
      cases hends with
      | all hparses htakes => exact ⟨calls, s', hparses, htakes⟩
    · rintro ⟨all, final, hparses, htakes⟩
      exact (Prod.mk.inj (hrun.symm.trans (visitAll_of_takes hparses htakes))).2

/-- A class `A`. -/
def walkClass : List UInt8 :=
  [0xca, 0xfe, 0xba, 0xbe, 0, 0, 0, 52, 0, 3, 1, 0, 1, 0x41, 7, 0, 1, 0, 1, 0, 2, 0, 0, 0, 0, 0, 0,
    0, 0, 0, 0]

/-- Two directories with a class file each, one of which is hidden, an archive and a file. -/
def walkTree : FileTree where
  root := [("app", .directory [("p", .directory [("B.class", .file 0)])]),
    ("web", .directory [(".git", .directory [("C.class", .file 0)])]),
    ("lib.jar", .file 1), ("D.class", .file 0)]
  contents := #[walkClass.toByteArray, (Archive.pack [⟨"E.class", walkClass, 0, 0⟩]).toByteArray]
  current := []

def walkRoots : List Path :=
  ["app", "web", "lib.jar", "D.class"]

/-- Takes two classes and keeps their names. -/
def walkHandler : Handler (List String) := fun names name _ =>
  if names.length < 2 then (names ++ [name], none) else (names, some (.text "enough"))

/-- What is at the roots of the sample, and what the handler sees of it. -/
theorem walk_facts :
    walkTree.root.isRegular = true ∧
    (walkTree.leadsToDirectory "app" ["app"] = true ∧
      walkTree.leadsToDirectory "web" ["web"] = true ∧
      walkTree.leadsToFile "lib.jar" ["lib.jar"] 1 = true ∧
      walkTree.leadsToFile "D.class" ["D.class"] 0 = true) ∧
    ((Archive.mk "lib.jar" (walkTree.content 1)).entries.isOk = true ∧
      isArchivePath "D.class" = false) ∧
    (visitAll walkHandler [] (ofRoots walkTree walkRoots)).1 = ["app/p/B.class", "E.class"] ∧
    (visitAll walkHandler [] (ofRoots walkTree walkRoots)).2.map Failure.message =
      some "walk: D.class: enough" := by
  decide +kernel

theorem visitAll_complete_sample :
    walkTree.root.isRegular = true ∧ (∀ root ∈ walkRoots, IsRoot walkTree root) ∧
    ∃ sources, (∀ listed, Enumerates walkTree walkRoots listed ↔ listed = sources) ∧
      ∃ calls s' result, Ends walkHandler [] sources calls s' result ∧
        s' = ["app/p/B.class", "E.class"] ∧
        result.map Failure.message = some "walk: D.class: enough" ∧
        visitAll walkHandler.recorded ([], []) (ofRoots walkTree walkRoots) =
          ((s', calls), result) := by
  obtain ⟨hregular, ⟨happ, hweb, hjar, hfile⟩, ⟨hentries, hplain⟩, hnames, hmessage⟩ := walk_facts
  have hroots : ∀ root ∈ walkRoots, IsRoot walkTree root := by
    intro root hroot
    simp only [walkRoots, List.mem_cons, List.not_mem_nil, or_false] at hroot
    rcases hroot with rfl | rfl | rfl | rfl
    · obtain ⟨d, hleads⟩ := FileTree.exists_leads_directory happ
      exact isRoot_of_directory hleads
    · obtain ⟨d, hleads⟩ := FileTree.exists_leads_directory hweb
      exact isRoot_of_directory hleads
    · refine isRoot_of_file (FileTree.leads_file hjar) fun _ => ?_
      cases hresult : (Archive.mk "lib.jar" (walkTree.content 1)).entries with
      | ok entries => exact ⟨entries, rfl⟩
      | error e =>
        rw [hresult] at hentries
        cases hentries
    · refine isRoot_of_file (FileTree.leads_file hfile) fun harchive => ?_
      cases harchive.symm.trans hplain
  obtain ⟨sources, hsources, calls, s', result, hends, hrun, hruns, -⟩ :=
    visitAll_complete hregular hroots walkHandler []
  rw [hrun] at hnames hmessage
  exact ⟨hregular, hroots, sources, hsources, calls, s', result, hends, hnames, hmessage, hruns⟩

/-! ### Directories that cannot be opened -/

/-- A long name. -/
def deepName : ByteString :=
  ⟨List.replicate 250 0x6e⟩

/-- Directories inside each other. -/
def deepDirectory : Nat → Directory
  | 0 => []
  | n + 1 => [(deepName, .directory (deepDirectory n))]

/-- A tree without any file. -/
def deepTree : FileTree where
  root := [("r", .directory (deepDirectory 17))]
  contents := #[]
  current := []

/-- The path of the last directory but one. -/
def deepRoot : Path :=
  Path.ofNames false ("r" :: List.replicate 16 deepName)

/-- The directory can be opened, but not the one in it. -/
theorem deep_facts :
    deepTree.root.isRegular = true ∧ FileTree.filesIn [] deepTree.root = [] ∧
    deepTree.leadsToDirectory deepRoot ("r" :: List.replicate 16 deepName) = true ∧
    (ofRoots deepTree [deepRoot]).map isReadable = [false] := by
  decide +kernel

/-- Without any class file, a walk need not end well. -/
theorem visitAll_deep :
    deepTree.root.isRegular = true ∧ FileTree.filesIn [] deepTree.root = [] ∧
    IsRoot deepTree deepRoot ∧
    ∀ (σ : Type) (h : Handler σ) (s : σ), ∃ path cause,
      visitAll h s (ofRoots deepTree [deepRoot]) = (s, some (.classFile path cause)) := by
  obtain ⟨hregular, hfiles, hdirectory, hsources⟩ := deep_facts
  obtain ⟨d, hleads⟩ := FileTree.exists_leads_directory hdirectory
  refine ⟨hregular, hfiles, isRoot_of_directory hleads, fun σ h s => ?_⟩
  obtain ⟨source, hsource, hunreadable⟩ := List.map_eq_singleton_iff.mp hsources
  rw [hsource]
  cases source with
  | readable path name bytes => cases hunreadable
  | unreadable path cause => exact ⟨path, cause, rfl⟩

end ClassSource

end ClassAudit
