import ClassAudit.Files.Walk
import ClassAudit.Proofs.Files.Pruning

/-! # Class files of a tree without some of them

    The class files that a walk comes to are those that it would come to in the whole tree, without
    those that have been taken away, and in the same order. This holds for a directory, where names
    are taken away, and for an archive, which is written anew without some of its entries. In both
    cases the bytes of a class file say whether it is dropped.
-/

namespace ClassAudit

variable {path : Path} {l : Location} {number : Nat} {d : Directory} {α : Type}
  {sources : List ClassSource} {c : Config}

namespace FileTree

/-! ### Looking at what paths lead to -/

variable {t : FileTree}

theorem look_of_target {operation : String} {follow : Bool} {e : FileEntry}
    (h : t.target follow false path = .ok (.found l e)) : t.look operation follow path = .ok e := by
  rw [look, h]

theorem exists_target_of_look {operation : String} {follow : Bool} {e : FileEntry}
    (h : t.look operation follow path = .ok e) :
    ∃ l, t.target follow false path = .ok (.found l e) := by
  unfold look at h
  split at h
  · cases h
  · cases h
  · rename_i l e' htarget
    rw [Except.ok.inj h] at htarget
    exact ⟨l, htarget⟩

theorem Leads.fileNumber_eq (h : t.Leads path l (.file number)) :
    t.fileNumber path = .ok number := by
  rw [fileNumber, look_of_target h]

theorem Leads.read_eq (h : t.Leads path l (.file number)) :
    t.read path = .ok (t.content number).toList := by
  rw [read, h.fileNumber_eq]
  rfl

theorem Leads.list_eq (h : t.Leads path l (.directory d)) : t.list path = .ok d.sorted := by
  rw [list, look_of_target h]

theorem exists_leads_of_list {entries : Directory} (h : t.list path = .ok entries) :
    ∃ l d, t.Leads path l (.directory d) := by
  unfold list at h
  split at h
  · rename_i d hlook
    obtain ⟨l, htarget⟩ := exists_target_of_look hlook
    exact ⟨l, d, htarget⟩
  · cases h
  · cases h

theorem exists_leads_of_read {bytes : List UInt8} (h : t.read path = .ok bytes) :
    ∃ l number, t.Leads path l (.file number) := by
  unfold read fileNumber at h
  split at h
  · rename_i number hlook
    obtain ⟨l, htarget⟩ := exists_target_of_look hlook
    exact ⟨l, number, htarget⟩
  · cases h
  · cases h

end FileTree

namespace ClassSource

open FileTree

variable {drop : List UInt8 → Bool} {gone : Location → Nat → Bool} {t t' : FileTree}
  {r : Location}

def isReadable : ClassSource → Bool
  | .readable _ _ _ => true
  | .unreadable _ _ => false

/-- Whether a class file is none of those that are dropped for their bytes. -/
def isKept (drop : List UInt8 → Bool) : ClassSource → Bool
  | .readable _ _ bytes => !drop bytes
  | .unreadable _ _ => true

/-! ### Directories -/

/-- Below a place, the class files that are taken away from a tree are those that are dropped for
    their bytes, and the others keep their bytes. -/
structure DropsBelow (drop : List UInt8 → Bool) (gone : Location → Nat → Bool) (t t' : FileTree)
    (r : Location) : Prop where
  pruned : Pruned gone t t'
  gone_eq {l : Location} (name : ByteString) (number : Nat) (h : r <+: l) :
    gone (l ++ [name]) number = (isClassName name && drop (t.content number).toList)
  content_eq {l : Location} {name : ByteString} {number : Nat} (h : r <+: l)
    (hclass : isClassName name = true) (hholds : t.Holds (l ++ [name]) (.file number)) :
    t'.content number = t.content number

theorem ofFile_eq (h : t.Leads path l (.file number)) :
    ofFile t path = .readable path.shown path.shown (t.content number).toList := by
  rw [ofFile, h.read_eq]

theorem exists_leads_of_ofFile (h : (ofFile t path).isReadable) :
    ∃ l number, t.Leads path l (.file number) := by
  unfold ofFile at h
  split at h
  · rename_i bytes hread
    exact exists_leads_of_read hread
  · cases h

/-- What is collected from what is left of some elements is what is left of what is collected. -/
theorem flatMap_filterMap_eq_filter {β γ : Type} {f : α → Option β} {g : α → List γ}
    {g' : β → List γ} {keep : γ → Bool} {xs : List α}
    (h : ∀ x ∈ xs, (f x).elim [] g' = (g x).filter keep) :
    (xs.filterMap f).flatMap g' = (xs.flatMap g).filter keep := by
  induction xs with
  | nil => rfl
  | cons x xs ih =>
    have hx := h x List.mem_cons_self
    have hxs := ih fun y hy => h y (List.mem_cons_of_mem _ hy)
    rw [List.flatMap_cons, List.filter_append, ← hx, ← hxs]
    cases hf : f x with
    | none => simp [hf]
    | some y => simp [hf]

theorem filter_below_file (h : DropsBelow drop gone t t' r) {fuel : Nat} {name : ByteString}
    (hl : r <+: l)
    (hleads : ∀ l' n, t.Leads (Path.join [path, name]) l' (.file n) →
      t.Leads (Path.join [path, name]) (l ++ [name]) (.file number))
    (hread : ∀ s ∈ below t isClassName fuel false (Path.join [path, name]) name (.file number),
      s.isReadable) :
    (Directory.pruneEntry gone l (name, .file number)).elim []
        (fun p => below t' isClassName fuel false (Path.join [path, p.1]) p.1 p.2) =
      (below t isClassName fuel false (Path.join [path, name]) name (.file number)).filter
        (isKept drop) := by
  have hgone := h.gone_eq name number hl
  cases fuel with
  | zero =>
    unfold Directory.pruneEntry
    split <;> rfl
  | succ fuel =>
    rw [below] at hread ⊢
    by_cases hclass : isClassName name
    · rw [if_pos hclass] at hread ⊢
      obtain ⟨l', n, hsome⟩ := exists_leads_of_ofFile (hread _ List.mem_cons_self)
      have hfile := hleads l' n hsome
      rw [hclass, Bool.true_and] at hgone
      rw [ofFile_eq hfile]
      by_cases hdrop : drop (t.content number).toList
      · rw [hdrop] at hgone
        simp [Directory.pruneEntry, FileEntry.isGone, hgone, isKept, hdrop]
      · rw [Bool.not_eq_true] at hdrop
        rw [hdrop] at hgone
        -- The file is still there, with the same bytes.
        have hfile' := h.pruned.leads hfile hgone
        rw [FileEntry.prune] at hfile'
        have hcontent := h.content_eq hl hclass (holds_of_target hfile)
        simp [Directory.pruneEntry, FileEntry.isGone, hgone, FileEntry.prune, below, hclass,
          ofFile_eq hfile', hcontent, isKept, hdrop]
    · rw [Bool.not_eq_true] at hclass
      rw [hclass, Bool.false_and] at hgone
      simp [Directory.pruneEntry, FileEntry.isGone, hgone, FileEntry.prune, below, hclass]

/-- The class files below a directory. Its entries are read from the path, and so it does not matter
    which entries are handed over. -/
theorem filter_below (h : DropsBelow drop gone t t' r) {fuel : Nat} {isRoot : Bool}
    {name : ByteString} {d₀ d₁ : Directory} (hl : r <+: l) (hpath : path.isEmpty = false)
    (hleads : ∀ l' e, t.Leads path l' (.directory e) →
      t.Leads path l (.directory d) ∧ t.Leads path.clean l (.directory d))
    (hread : ∀ s ∈ below t isClassName fuel isRoot path name (.directory d₀), s.isReadable) :
    below t' isClassName fuel isRoot path name (.directory d₁) =
      (below t isClassName fuel isRoot path name (.directory d₀)).filter (isKept drop) := by
  induction fuel generalizing isRoot path name l d d₀ d₁ with
  | zero => rfl
  | succ fuel ih =>
    rw [below] at hread ⊢
    rw [below]
    dsimp only at hread ⊢
    by_cases hhidden : (!isRoot && name.startsWith Path.here) = true
    · rw [if_pos hhidden, if_pos hhidden]
      rfl
    · rw [if_neg hhidden] at hread ⊢
      rw [if_neg hhidden]
      cases hlist : t.list path with
      | error e =>
        rw [hlist] at hread
        exact absurd (hread _ List.mem_cons_self) (by simp [isReadable])
      | ok entries =>
        rw [hlist] at hread
        obtain ⟨l', e, hsome⟩ := exists_leads_of_list hlist
        obtain ⟨hdir, hclean⟩ := hleads l' e hsome
        have hentries : entries = d.sorted := Except.ok.inj (hlist.symm.trans hdir.list_eq)
        obtain ⟨hnodup, hnames⟩ : (d.map Prod.fst).Nodup ∧ ∀ p ∈ d, Path.IsEntryName p.1 := by
          cases h.pruned.wellFormed_of_holds (holds_of_target hdir) with
          | directory nodup isName _ => exact ⟨nodup, isName⟩
        have hdir' := h.pruned.leads hdir rfl
        rw [FileEntry.prune] at hdir'
        rw [hdir'.list_eq, Directory.sorted_prune hnodup, Directory.prune_eq_filterMap, hentries]
        rw [hentries] at hread
        refine flatMap_filterMap_eq_filter fun p hp => ?_
        obtain ⟨child, entry⟩ := p
        have hmem : (child, entry) ∈ d := Directory.mem_sorted.mp hp
        have hread' := fun s hs => hread s (List.mem_flatMap.mpr ⟨_, hp, hs⟩)
        have hchild : Path.IsEntryName child := hnames _ hmem
        have hlookup := Directory.lookup_of_mem hnodup hmem
        cases entry with
        | file number =>
          refine filter_below_file h hl (fun l' n hsome => ?_) hread'
          exact leads_join_entry hpath hchild hclean hlookup (by simp) hsome
        | directory inner =>
          have hinner : ∀ l' e, t.Leads (Path.join [path, child]) l' (.directory e) →
              t.Leads (Path.join [path, child]) (l ++ [child]) (.directory inner) ∧
                t.Leads (Path.join [path, child]).clean (l ++ [child]) (.directory inner) := by
            intro l' e hsome
            rw [Path.clean_join_entry hpath hchild, and_self]
            exact leads_join_entry hpath hchild hclean hlookup (by simp) hsome
          exact ih (hl.trans (List.prefix_append _ _)) (Path.isEmpty_join_entry hpath hchild) hinner
            hread'
        | link target => cases fuel <;> rfl

theorem filter_ofDirectory {root : Path} (h : DropsBelow drop gone t t' r)
    (hleads : t.Leads root r (.directory d)) (hclean : t.Leads root.clean r (.directory d))
    (hread : ∀ s ∈ ofDirectory t isClassName root, s.isReadable) :
    ofDirectory t' isClassName root =
      (ofDirectory t isClassName root).filter (isKept drop) := by
  unfold ofDirectory at hread ⊢
  cases hlook : t.lstat root with
  | error e =>
    rw [hlook] at hread
    exact absurd (hread _ List.mem_cons_self) (by simp [isReadable])
  | ok entry =>
    rw [hlook] at hread
    obtain ⟨l, htarget⟩ := exists_target_of_look hlook
    cases entry with
    | file number =>
      -- A path that leads to a directory is no file.
      have hfile := leads_of_target_file htarget
      exact absurd (hleads.unique hfile).2 (fun heq => nomatch heq)
    | directory d₀ =>
      have htarget' := h.pruned.target_of_found htarget rfl
      rw [lstat, look_of_target htarget']
      exact filter_below h (List.prefix_refl r) hleads.not_isEmpty
        (fun _ _ _ => ⟨hleads, hclean⟩) hread
    | link target =>
      have htarget' := h.pruned.target_of_found htarget rfl
      rw [lstat, look_of_target htarget']
      rfl

end ClassSource

/-! ### Archives -/

deriving instance DecidableEq for ArchiveError

/-- An entry of an archive with what it holds. -/
structure ArchiveItem where
  name : Path
  marksDirectory : Bool
  bytes : Except ArchiveError (List UInt8)
  deriving DecidableEq

namespace ArchiveItem

def isClass (i : ArchiveItem) : Bool :=
  !i.marksDirectory && ClassSource.isClassName i.name

/-- Whether an entry is a class file that is dropped for its bytes. -/
def isDropped (drop : List UInt8 → Bool) (i : ArchiveItem) : Bool :=
  i.isClass &&
    match i.bytes with
    | .ok bytes => drop bytes
    | .error _ => false

/-- The class file that an entry of the archive at a path is. -/
def source (path : Path) (i : ArchiveItem) : ClassSource :=
  let full := path.shown ++ "!/" ++ i.name.shown
  match i.bytes with
  | .ok bytes => .readable full i.name.shown bytes
  | .error cause => .unreadable full (.archive cause)

theorem isKept_source {drop : List UInt8 → Bool} {i : ArchiveItem} (hclass : i.isClass = true) :
    (i.source path).isKept drop = !i.isDropped drop := by
  unfold source isDropped
  rw [hclass]
  cases i.bytes <;> rfl

end ArchiveItem

namespace Archive

/-- What an archive holds, in its order. -/
def items (a : Archive) : Except ArchiveError (List ArchiveItem) :=
  a.entries.map fun entries => entries.map fun e => ⟨e.name, e.marksDirectory, e.file.read a⟩

/-- An archive holds what another one holds without the class files that are dropped for their
    bytes, in the same order. -/
def Without (drop : List UInt8 → Bool) (a a' : Archive) : Prop :=
  ∀ items, a.items = .ok items → a'.items = .ok (items.filter fun i => !i.isDropped drop)

end Archive

namespace ClassSource

open FileTree

variable {drop : List UInt8 → Bool} {t t' : FileTree}

theorem ofEntry_eq (a : Archive) (e : ArchiveEntry) :
    ofEntry a e = ArchiveItem.source a.path ⟨e.name, e.marksDirectory, e.file.read a⟩ := by
  unfold ofEntry ArchiveItem.source
  rfl

/-- Opening an archive, for any way to read its entries. -/
theorem bind_archive_eq (content : Nat → ByteArray)
    (entriesOf : Archive → Except ArchiveError (List ArchiveEntry)) :
    (do
      let a : Archive := ⟨path, content (← (Except.ok number).mapError Failure.file)⟩
      return (a, ← (entriesOf a).mapError Failure.archive)) =
      ((entriesOf ⟨path, content number⟩).mapError Failure.archive).map fun entries =>
        ((⟨path, content number⟩ : Archive), entries) := by
  dsimp only [Except.mapError, bind, Except.bind]
  cases entriesOf ⟨path, content number⟩ <;> rfl

theorem ofArchive_eq (h : t.Leads path l (.file number)) :
    ofArchive t path =
      match (Archive.mk path (t.content number)).items with
      | .error e => [.unreadable path.shown (.archive e)]
      | .ok items => (items.filter ArchiveItem.isClass).map (ArchiveItem.source path) := by
  rw [ofArchive, archive, h.fileNumber_eq, bind_archive_eq, Archive.items]
  cases (Archive.mk path (t.content number)).entries with
  | error e => rfl
  | ok entries =>
    dsimp only [Except.mapError, Except.map]
    rw [List.filter_map, List.map_map]
    exact List.map_congr_left fun e _ => ofEntry_eq _ e

theorem filter_ofArchive (hleads : t.Leads path l (.file number))
    (hleads' : t'.Leads path l (.file number))
    (hwithout : Archive.Without drop ⟨path, t.content number⟩ ⟨path, t'.content number⟩)
    (hread : ∀ s ∈ ofArchive t path, s.isReadable) :
    ofArchive t' path = (ofArchive t path).filter (isKept drop) := by
  rw [ofArchive_eq hleads] at hread ⊢
  cases hitems : (Archive.mk path (t.content number)).items with
  | error e =>
    rw [hitems] at hread
    exact absurd (hread _ List.mem_cons_self) (by simp [isReadable])
  | ok items =>
    rw [ofArchive_eq hleads', hwithout items hitems]
    dsimp only
    rw [List.filter_map, List.filter_filter, List.filter_filter]
    congr 1
    refine List.filter_congr fun i _ => ?_
    cases hclass : i.isClass with
    | false => simp
    | true => simp [ArchiveItem.isKept_source hclass]

/-! ### Visits that come to an end -/

variable {σ : Type} {h : Handler σ} {s s' : σ}

theorem visitAll_cons_eq_none {source : ClassSource} :
    visitAll h s (source :: sources) = (s', none) ↔
      ∃ next, source.visit h s = (next, none) ∧ visitAll h next sources = (s', none) := by
  rw [visitAll]
  constructor
  · intro hall
    split at hall
    · rename_i next hvisit
      exact ⟨next, hvisit, hall⟩
    · cases hall
  · rintro ⟨next, hvisit, hall⟩
    rw [hvisit]
    exact hall

/-- A class file is visited without failure if it is read, and the handler takes the class. -/
theorem visit_eq_none {source : ClassSource} :
    source.visit h s = (s', none) ↔
      ∃ path name bytes cf, source = .readable path name bytes ∧
        ClassFile.parse bytes = .ok cf ∧ h s name cf = (s', none) := by
  constructor
  · intro hvisit
    cases source with
    | unreadable path cause => cases hvisit
    | readable path name bytes =>
      rw [visit] at hvisit
      split at hvisit
      · cases hvisit
      · rename_i cf hparse
        split at hvisit
        · rename_i next hhandler
          exact ⟨path, name, bytes, cf, rfl, hparse, hhandler.trans hvisit⟩
        · cases hvisit
  · rintro ⟨path, name, bytes, cf, rfl, hparse, hhandler⟩
    rw [visit, hparse]
    dsimp only
    rw [hhandler]

theorem isReadable_of_visitAll (hall : visitAll h s sources = (s', none)) :
    ∀ source ∈ sources, source.isReadable := by
  induction sources generalizing s with
  | nil => exact fun _ hmem => absurd hmem List.not_mem_nil
  | cons source sources ih =>
    obtain ⟨next, hvisit, hrest⟩ := visitAll_cons_eq_none.mp hall
    intro other hmem
    rcases List.mem_cons.mp hmem with rfl | hmem
    · obtain ⟨path, name, bytes, cf, rfl, -, -⟩ := visit_eq_none.mp hvisit
      rfl
    · exact ih hrest other hmem

end ClassSource

/-! ### Classes that are left out -/

/-- Whether bytes are those of a class that a project leaves out. -/
def Config.dropsClass (c : Config) (bytes : List UInt8) : Bool :=
  match ClassFile.parse bytes with
  | .ok cf => c.excludes cf.name
  | .error _ => false

namespace ClassSource

theorem isKept_readable {path name : String} {bytes : List UInt8} {cf : ClassFile}
    (hparse : ClassFile.parse bytes = .ok cf) :
    (readable path name bytes).isKept c.dropsClass = !c.excludes cf.name := by
  rw [isKept, Config.dropsClass, hparse]

/-- A handler that skips classes does not see whether they are there. -/
theorem visitAll_filter {σ : Type} {h : Handler σ} {s s' : σ}
    (hall : visitAll (c.handler h) s sources = (s', none)) :
    visitAll (c.handler h) s (sources.filter (isKept c.dropsClass)) = (s', none) := by
  induction sources generalizing s with
  | nil => exact hall
  | cons source sources ih =>
    obtain ⟨next, hvisit, hrest⟩ := visitAll_cons_eq_none.mp hall
    obtain ⟨path, name, bytes, cf, rfl, hparse, hhandler⟩ := visit_eq_none.mp hvisit
    rw [List.filter_cons, isKept_readable hparse]
    by_cases hexcluded : c.excludes cf.name
    · rw [Config.handler, if_pos hexcluded] at hhandler
      obtain rfl : s = next := (Prod.mk.inj hhandler).1
      simpa [hexcluded] using ih hrest
    · rw [if_pos (by simpa using hexcluded), visitAll_cons_eq_none]
      exact ⟨next, hvisit, ih hrest⟩

theorem collect_filter {ε : Type} {failure : ε → Failure}
    {analysis : ClassFile → Except ε (List α)} {results : List α}
    (hcollect : collect c.handler failure analysis sources = .ok results) :
    collect c.handler failure analysis (sources.filter (isKept c.dropsClass)) = .ok results := by
  unfold collect at hcollect ⊢
  split at hcollect
  · rename_i collector hall
    rw [visitAll_filter hall]
    exact hcollect
  · cases hcollect

theorem isReadable_of_collect {ε : Type}
    {adapt : Handler (Collector ε α) → Handler (Collector ε α)} {failure : ε → Failure}
    {analysis : ClassFile → Except ε (List α)} {results : List α}
    (hcollect : collect adapt failure analysis sources = .ok results) :
    ∀ source ∈ sources, source.isReadable := by
  unfold collect at hcollect
  split at hcollect
  · rename_i collector hall
    exact isReadable_of_visitAll hall
  · cases hcollect

end ClassSource

end ClassAudit
