import Mathlib.Data.List.Sort
import ClassAudit.Proofs.Files.Regular
import ClassAudit.Proofs.Files.Walk

/-! # The class files of some roots

    Which class files a walk through a regular tree comes to, said without walking. Below a directory
    they are the files with the names of class files that do not lie in a directory with a dot in
    front of its name, in the order of their places: places are compared name by name, so that each
    directory is in the order of its names. An archive has its entries, and any other file is taken
    as it is.

    A directory whose path is too long to be opened stands in this list for all that lies in it.
    There is one such list, and a walk comes to what is in it.
-/

namespace ClassAudit

variable {d : Directory} {l : Location} {name : ByteString} {root : Path}

theorem Directory.increasing_sorted (h : (d.map Prod.fst).Nodup) :
    d.sorted.Pairwise fun p q => p.1 < q.1 := by
  have hnodup : d.sorted.Pairwise fun p q => p.1 ≠ q.1 :=
    List.pairwise_map.mp (((List.mergeSort_perm d _).map Prod.fst).nodup_iff.mpr h)
  refine ((pairwise_sorted d).and hnodup).imp fun {p q} hpq => ?_
  have hnot : ¬q.1 < p.1 := by simpa using hpq.1
  by_contra hlt
  exact hpq.2 (StrictOrder.connected hlt hnot)

namespace ClassSource

open FileTree

variable {t : FileTree} {path : Path}

/-! ### Below a directory -/

/-- A file or a directory that cannot be opened, as its path is too long. -/
def tooLong (path : Path) : ClassSource :=
  .unreadable path.shown (.file ⟨"open", path, .nameTooLong⟩)

/-- The class file that is the file with a number. -/
def fileAt (t : FileTree) (path : Path) (number : Nat) : ClassSource :=
  if Path.pathLimit < path.length then tooLong path
  else .readable path.shown path.shown (t.content number).toList

/-- What a walk comes to below a directory with a path, and the names that lead there. -/
inductive Comes (t : FileTree) : Path → Directory → Location → ClassSource → Prop
  | file {path : Path} {d : Directory} {name : ByteString} {number : Nat}
    (hmem : (name, .file number) ∈ d) (hclass : isClassName name = true) :
    Comes t path d [name] (fileAt t (Path.join [path, name]) number)
  | closed {path : Path} {d inner : Directory} {name : ByteString}
    (hmem : (name, .directory inner) ∈ d) (hshown : name.startsWith Path.here = false)
    (hlong : Path.pathLimit < (Path.join [path, name]).length) :
    Comes t path d [name] (tooLong (Path.join [path, name]))
  | inside {path : Path} {d inner : Directory} {name : ByteString} {l : Location}
    {source : ClassSource} (hmem : (name, .directory inner) ∈ d)
    (hshown : name.startsWith Path.here = false)
    (hlength : (Path.join [path, name]).length ≤ Path.pathLimit)
    (h : Comes t (Path.join [path, name]) inner l source) : Comes t path d (name :: l) source

/-- All that a walk comes to below a directory, in the order of places. -/
structure Listing (t : FileTree) (path : Path) (d : Directory)
    (places : List (Location × ClassSource)) : Prop where
  increasing : places.Pairwise fun p q => p.1 < q.1
  mem_iff : ∀ l source, (l, source) ∈ places ↔ Comes t path d l source

/-- Each entry of a directory adds what a walk comes to by itself. -/
theorem comes_iff {source : ClassSource} :
    Comes t path d l source ↔ ∃ p ∈ d, Comes t path [p] l source := by
  constructor
  · intro h
    cases h with
    | file hmem hclass => exact ⟨_, hmem, .file List.mem_cons_self hclass⟩
    | closed hmem hshown hlong => exact ⟨_, hmem, .closed List.mem_cons_self hshown hlong⟩
    | inside hmem hshown hlength h =>
      exact ⟨_, hmem, .inside List.mem_cons_self hshown hlength h⟩
  · rintro ⟨p, hp, h⟩
    cases h with
    | file hmem hclass => exact .file (List.mem_singleton.mp hmem ▸ hp) hclass
    | closed hmem hshown hlong => exact .closed (List.mem_singleton.mp hmem ▸ hp) hshown hlong
    | inside hmem hshown hlength h =>
      exact .inside (List.mem_singleton.mp hmem ▸ hp) hshown hlength h

theorem Comes.exists_cons {p : ByteString × FileEntry} {source : ClassSource}
    (h : Comes t path [p] l source) : ∃ rest, l = p.1 :: rest := by
  cases h with
  | file hmem _ => exact ⟨[], by rw [← List.mem_singleton.mp hmem]⟩
  | closed hmem _ _ => exact ⟨[], by rw [← List.mem_singleton.mp hmem]⟩
  | inside hmem _ _ _ => exact ⟨_, by rw [← List.mem_singleton.mp hmem]⟩

namespace Listing

variable {d : Directory} {places places' : List (Location × ClassSource)}

theorem unique (h : Listing t path d places) (h' : Listing t path d places') :
    places = places' := by
  have : Std.Asymm fun p q : Location × ClassSource => p.1 < q.1 :=
    ⟨fun _ _ hpq => List.lt_asymm hpq⟩
  refine h.increasing.eq_of_mem_iff h'.increasing fun p => ?_
  rw [h.mem_iff, h'.mem_iff]

theorem nil : Listing t path [] [] where
  increasing := .nil
  mem_iff l source := by
    rw [comes_iff]
    simp

theorem cons {p : ByteString × FileEntry} (hp : Listing t path [p] places)
    (hd : Listing t path d places') (hlt : ∀ q ∈ d, p.1 < q.1) :
    Listing t path (p :: d) (places ++ places') where
  increasing := by
    refine List.pairwise_append.mpr ⟨hp.increasing, hd.increasing, fun x hx y hy => ?_⟩
    obtain ⟨rest, hrest⟩ := ((hp.mem_iff x.1 x.2).mp hx).exists_cons
    obtain ⟨q, hq, hy⟩ := comes_iff.mp ((hd.mem_iff y.1 y.2).mp hy)
    obtain ⟨rest', hrest'⟩ := hy.exists_cons
    rw [hrest, hrest']
    exact .rel (hlt q hq)
  mem_iff l source := by
    rw [List.mem_append, hp.mem_iff, hd.mem_iff, comes_iff (d := p :: d), comes_iff (d := d)]
    simp

theorem exists_flatMap {f : ByteString × FileEntry → List ClassSource}
    (hd : d.Pairwise fun p q => p.1 < q.1)
    (h : ∀ p ∈ d, ∃ places, Listing t path [p] places ∧ places.map Prod.snd = f p) :
    ∃ places, Listing t path d places ∧ places.map Prod.snd = d.flatMap f := by
  induction d with
  | nil => exact ⟨[], nil, rfl⟩
  | cons p d ih =>
    obtain ⟨hlt, hd⟩ := List.pairwise_cons.mp hd
    obtain ⟨hp, hrest⟩ := List.forall_mem_cons.mp h
    obtain ⟨places, hplaces, hsources⟩ := hp
    obtain ⟨places', hplaces', hsources'⟩ := ih hd hrest
    refine ⟨places ++ places', hplaces.cons hplaces' hlt, ?_⟩
    rw [List.map_append, hsources, hsources', List.flatMap_cons]

theorem of_sorted (h : Listing t path d.sorted places) : Listing t path d places where
  increasing := h.increasing
  mem_iff l source := by
    rw [h.mem_iff, comes_iff, comes_iff (d := d)]
    simp only [Directory.mem_sorted]

theorem file (t : FileTree) (path : Path) (name : ByteString) (number : Nat) :
    Listing t path [(name, .file number)]
      (if isClassName name then [([name], fileAt t (Path.join [path, name]) number)] else []) where
  increasing := by
    split
    · exact List.pairwise_singleton _ _
    · exact .nil
  mem_iff l source := by
    constructor
    · intro h
      split at h
      · rename_i hclass
        obtain ⟨rfl, rfl⟩ := Prod.mk.inj (List.mem_singleton.mp h)
        exact .file List.mem_cons_self hclass
      · cases h
    · intro h
      cases h with
      | file hmem hclass =>
        obtain ⟨rfl, hentry⟩ := Prod.mk.inj (List.mem_singleton.mp hmem)
        obtain rfl := FileEntry.file.inj hentry
        rw [if_pos hclass]
        exact List.mem_cons_self
      | closed hmem _ _ => cases List.mem_singleton.mp hmem
      | inside hmem _ _ _ => cases List.mem_singleton.mp hmem

theorem hidden (hhidden : name.startsWith Path.here = true) (inner : Directory) :
    Listing t path [(name, .directory inner)] [] where
  increasing := .nil
  mem_iff l source := by
    refine iff_of_false List.not_mem_nil fun h => ?_
    cases h with
    | file hmem _ => cases List.mem_singleton.mp hmem
    | closed hmem hshown _ =>
      obtain ⟨rfl, -⟩ := Prod.mk.inj (List.mem_singleton.mp hmem)
      rw [hhidden] at hshown
      cases hshown
    | inside hmem hshown _ _ =>
      obtain ⟨rfl, -⟩ := Prod.mk.inj (List.mem_singleton.mp hmem)
      rw [hhidden] at hshown
      cases hshown

theorem closed (hshown : name.startsWith Path.here = false)
    (hlong : Path.pathLimit < (Path.join [path, name]).length) (inner : Directory) :
    Listing t path [(name, .directory inner)] [([name], tooLong (Path.join [path, name]))] where
  increasing := List.pairwise_singleton _ _
  mem_iff l source := by
    constructor
    · intro h
      obtain ⟨rfl, rfl⟩ := Prod.mk.inj (List.mem_singleton.mp h)
      exact .closed List.mem_cons_self hshown hlong
    · intro h
      cases h with
      | file hmem _ => cases List.mem_singleton.mp hmem
      | closed hmem _ _ =>
        obtain ⟨rfl, -⟩ := Prod.mk.inj (List.mem_singleton.mp hmem)
        exact List.mem_cons_self
      | inside hmem _ hlength _ =>
        obtain ⟨rfl, -⟩ := Prod.mk.inj (List.mem_singleton.mp hmem)
        exact absurd hlong (Nat.not_lt.mpr hlength)

theorem inside {inner : Directory} (hshown : name.startsWith Path.here = false)
    (hlength : (Path.join [path, name]).length ≤ Path.pathLimit)
    (h : Listing t (Path.join [path, name]) inner places) :
    Listing t path [(name, .directory inner)] (places.map fun p => (name :: p.1, p.2)) where
  increasing := h.increasing.map _ fun _ _ hlt => .cons hlt
  mem_iff l source := by
    constructor
    · intro hmem
      obtain ⟨p, hp, heq⟩ := List.mem_map.mp hmem
      obtain ⟨rfl, rfl⟩ := Prod.mk.inj heq
      exact .inside List.mem_cons_self hshown hlength ((h.mem_iff _ _).mp hp)
    · intro hcomes
      cases hcomes with
      | file hmem _ => cases List.mem_singleton.mp hmem
      | closed hmem _ hlong =>
        obtain ⟨rfl, -⟩ := Prod.mk.inj (List.mem_singleton.mp hmem)
        exact absurd hlong (Nat.not_lt.mpr hlength)
      | inside hmem _ _ hcomes =>
        obtain ⟨rfl, hentry⟩ := Prod.mk.inj (List.mem_singleton.mp hmem)
        obtain rfl := FileEntry.directory.inj hentry
        exact List.mem_map.mpr ⟨_, (h.mem_iff _ _).mpr hcomes, rfl⟩

end Listing

/-! ### The walk below a directory -/

section Entry

variable {place : Place} (h : Spells t path place) {name : ByteString}
  (hname : Path.IsFileName name)
include h hname

theorem ofFile_entry {number : Nat}
    (hlookup : (t.directoryAt place).lookup name = some (.file number)) :
    ofFile t (Path.join [path, name]) = fileAt t (Path.join [path, name]) number := by
  have htarget := h.target_entry hname hlookup (fun _ heq => nomatch heq)
  unfold fileAt
  split
  · rename_i hlong
    rw [if_pos hlong] at htarget
    rw [ofFile, FileTree.read, fileNumber, look, htarget]
    rfl
  · rename_i hlong
    rw [if_neg hlong] at htarget
    exact ofFile_eq htarget

theorem list_entry {inner : Directory}
    (hlookup : (t.directoryAt place).lookup name = some (.directory inner)) :
    t.list (Path.join [path, name]) =
      if Path.pathLimit < (Path.join [path, name]).length then
        .error ⟨"open", Path.join [path, name], .nameTooLong⟩
      else .ok inner.sorted := by
  have htarget := h.target_entry hname hlookup (fun _ heq => nomatch heq)
  split
  · rename_i hlong
    rw [if_pos hlong] at htarget
    rw [list, look, htarget]
  · rename_i hlong
    rw [if_neg hlong] at htarget
    exact Leads.list_eq htarget

/-- Paths get longer on the way down, and so the fuel lasts until they are too long. -/
theorem length_join_entry_lt {child : ByteString} (hchild : Path.IsFileName child) :
    (Path.join [path, name]).length <
      (Path.join [Path.join [path, name], child]).length := by
  have hentry := hname.toIsEntryName
  have hempty := Path.isEmpty_join_entry h.not_isEmpty hentry
  have hsettled : ¬((Path.join [path, name]).settled = [] ∧
      (Path.join [path, name]).isAbsolute = false) := by
    rw [Path.settled_join_entry h.not_isEmpty hentry]
    simp
  have hlt := Path.length_clean_lt_join_entry hempty hchild.toIsEntryName hsettled
  rwa [Path.clean_join_entry h.not_isEmpty hentry] at hlt

end Entry

/-- The walk below a directory of a regular tree comes to what its listing has. The fuel is enough
    for as many directories as a path can go through. -/
theorem exists_listing (hregular : t.root.isRegular = true) {fuel : Nat} {place : Place}
    (hplace : Stands t place) (h : Spells t path place) (hfuel : fuel ≠ 0)
    (hlength : ∀ name, Path.IsFileName name →
      Path.pathLimit + 2 ≤ fuel + (Path.join [path, name]).length) :
    ∃ places, Listing t path (t.directoryAt place) places ∧
      places.map Prod.snd = (t.directoryAt place).sorted.flatMap fun p =>
        below t isClassName fuel false (Path.join [path, p.1]) p.1 p.2 := by
  induction fuel generalizing path place with
  | zero => exact absurd rfl hfuel
  | succ fuel ih =>
    have hdirectory := hplace.isRegular hregular
    have hnodup := Directory.nodup_of_isRegular hdirectory
    -- It is enough to list each entry by itself, as the names are in order.
    suffices hentries : ∀ p ∈ (t.directoryAt place).sorted, ∃ places, Listing t path [p] places ∧
        places.map Prod.snd =
          below t isClassName (fuel + 1) false (Path.join [path, p.1]) p.1 p.2 by
      obtain ⟨places, hplaces, hsources⟩ :=
        Listing.exists_flatMap (Directory.increasing_sorted hnodup) hentries
      exact ⟨places, hplaces.of_sorted, hsources⟩
    rintro ⟨name, e⟩ hp
    have hmem := Directory.mem_sorted.mp hp
    have hlookup := Directory.lookup_of_mem hnodup hmem
    obtain ⟨hname, hentry⟩ := Directory.isRegular_of_mem hdirectory hmem
    cases e with
    | link target => cases hentry
    | file number =>
      refine ⟨_, Listing.file t path name number, ?_⟩
      rw [below, ofFile_entry h hname hlookup]
      split <;> rfl
    | directory inner =>
      rw [below]
      dsimp only
      cases hshown : name.startsWith Path.here with
      | true => exact ⟨[], Listing.hidden hshown inner, rfl⟩
      | false =>
        rw [list_entry h hname hlookup, if_neg (by simp)]
        by_cases hlong : Path.pathLimit < (Path.join [path, name]).length
        · rw [if_pos hlong]
          exact ⟨_, Listing.closed hshown hlong inner, rfl⟩
        · -- The directory can be opened, and the fuel is spent no faster than the path grows.
          rw [if_neg hlong]
          have hleft := hlength name hname
          obtain ⟨places, hplaces, hsources⟩ := ih (.enter hplace hlookup)
            (h.enter hname hlookup) (by omega) fun child hchild => by
              have hlt := length_join_entry_lt h hname hchild
              omega
          refine ⟨_, hplaces.inside hshown (Nat.not_lt.mp hlong), ?_⟩
          rw [List.map_map]
          exact hsources

theorem exists_listing_root (hregular : t.root.isRegular = true)
    (h : t.Leads root l (.directory d)) :
    ∃ places, Listing t root d places ∧
      places.map Prod.snd = ofDirectory t isClassName root := by
  obtain ⟨place, hplace, rfl, hspells, l', htarget⟩ := h.exists_spells hregular
  have hlength : ∀ name, Path.IsFileName name →
      Path.pathLimit + 2 ≤ Path.pathLimit + 1 + (Path.join [root, name]).length := by
    intro name hname
    have hne := Path.isEmpty_join_entry hspells.not_isEmpty hname.toIsEntryName
    have hpos : 0 < (Path.join [root, name]).length := by
      rw [ByteString.length, List.length_pos_iff]
      simpa [ByteString.isEmpty] using hne
    omega
  obtain ⟨places, hplaces, hsources⟩ := exists_listing hregular hplace hspells
    (Nat.succ_ne_zero _) hlength
  refine ⟨places, hplaces, ?_⟩
  rw [ofDirectory, lstat, look_of_target htarget, hsources]
  dsimp only
  rw [depthLimit, below, h.list_eq]
  rfl

/-! ### Roots -/

/-- The class files of a root, in order. -/
inductive RootListing (t : FileTree) (root : Path) : List ClassSource → Prop
  | directory {l : Location} {d : Directory} {places : List (Location × ClassSource)}
    (hleads : t.Leads root l (.directory d)) (h : Listing t root d places) :
    RootListing t root (places.map Prod.snd)
  | archive {l : Location} {number : Nat} {items : List ArchiveItem}
    (hleads : t.Leads root l (.file number)) (harchive : isArchivePath root = true)
    (h : (Archive.mk root (t.content number)).items = .ok items) :
    RootListing t root ((items.filter ArchiveItem.isClass).map (ArchiveItem.source root))
  | file {l : Location} {number : Nat} (hleads : t.Leads root l (.file number))
    (harchive : isArchivePath root = false) :
    RootListing t root [.readable root.shown root.shown (t.content number).toList]

/-- The class files of some roots, root by root. -/
inductive Enumerates (t : FileTree) : List Path → List ClassSource → Prop
  | nil : Enumerates t [] []
  | cons {root : Path} {roots : List Path} {sources rest : List ClassSource}
    (hroot : RootListing t root sources) (h : Enumerates t roots rest) :
    Enumerates t (root :: roots) (sources ++ rest)

/-- A root that a walk can begin with: something is there, and if it is a file with the name of an
    archive, then it is one. -/
structure IsRoot (t : FileTree) (root : Path) : Prop where
  exists_stat : ∃ e, t.stat root = .ok e
  exists_entries : ∀ number, t.stat root = .ok (.file number) → isArchivePath root = true →
    ∃ entries, (Archive.mk root (t.content number)).entries = .ok entries

theorem isRoot_of_directory (h : t.Leads root l (.directory d)) : IsRoot t root where
  exists_stat := ⟨_, look_of_target h⟩
  exists_entries number hstat _ := by
    cases (look_of_target h).symm.trans hstat

theorem isRoot_of_file {number : Nat} (h : t.Leads root l (.file number))
    (harchive : isArchivePath root = true →
      ∃ entries, (Archive.mk root (t.content number)).entries = .ok entries) : IsRoot t root where
  exists_stat := ⟨_, look_of_target h⟩
  exists_entries number' hstat hpath := by
    obtain rfl := FileEntry.file.inj (Except.ok.inj ((look_of_target h).symm.trans hstat))
    exact harchive hpath

theorem RootListing.unique {sources sources' : List ClassSource} (h : RootListing t root sources)
    (h' : RootListing t root sources') : sources = sources' := by
  cases h with
  | directory hleads h =>
    cases h' with
    | directory hleads' h' =>
      obtain rfl := FileEntry.directory.inj (hleads.unique hleads').2
      rw [h.unique h']
    | archive hleads' _ _ => cases (hleads.unique hleads').2
    | file hleads' _ => cases (hleads.unique hleads').2
  | archive hleads harchive h =>
    cases h' with
    | directory hleads' _ => cases (hleads.unique hleads').2
    | archive hleads' _ h' =>
      obtain rfl := FileEntry.file.inj (hleads.unique hleads').2
      rw [Except.ok.inj (h.symm.trans h')]
    | file _ harchive' => cases harchive.symm.trans harchive'
  | file hleads harchive =>
    cases h' with
    | directory hleads' _ => cases (hleads.unique hleads').2
    | archive _ harchive' _ => cases harchive.symm.trans harchive'
    | file hleads' _ => rw [FileEntry.file.inj (hleads.unique hleads').2]

theorem Enumerates.unique {roots : List Path} {sources sources' : List ClassSource}
    (h : Enumerates t roots sources) (h' : Enumerates t roots sources') : sources = sources' := by
  induction h generalizing sources' with
  | nil =>
    cases h'
    rfl
  | cons hroot _ ih =>
    cases h' with
    | cons hroot' h' => rw [hroot.unique hroot', ih h']

/-- A walk comes to the class files of its roots. -/
theorem rootListing_ofRoot (hregular : t.root.isRegular = true) (h : IsRoot t root) :
    RootListing t root (ofRoot t root) := by
  obtain ⟨e, hstat⟩ := h.exists_stat
  obtain ⟨l, hleads⟩ := exists_target_of_look hstat
  rw [ofRoot, hstat]
  cases e with
  | link target => exact absurd hleads Leads.ne_link
  | directory d =>
    obtain ⟨places, hplaces, hsources⟩ := exists_listing_root hregular hleads
    dsimp only
    rw [← hsources]
    exact .directory hleads hplaces
  | file number =>
    dsimp only
    cases harchive : isArchivePath root with
    | false =>
      rw [if_neg (by simp), ofFile_eq hleads]
      exact .file hleads harchive
    | true =>
      obtain ⟨entries, hentries⟩ := h.exists_entries number hstat harchive
      have hitems : ∃ items, (Archive.mk root (t.content number)).items = .ok items := by
        rw [Archive.items, hentries]
        exact ⟨_, rfl⟩
      obtain ⟨items, hitems⟩ := hitems
      rw [if_pos rfl, ofArchive_eq hleads, hitems]
      exact .archive hleads harchive hitems

theorem enumerates_ofRoots (hregular : t.root.isRegular = true) {roots : List Path}
    (h : ∀ root ∈ roots, IsRoot t root) : Enumerates t roots (ofRoots t roots) := by
  induction roots with
  | nil => exact .nil
  | cons root roots ih =>
    obtain ⟨hroot, hroots⟩ := List.forall_mem_cons.mp h
    exact .cons (rootListing_ofRoot hregular hroot) (ih hroots)

end ClassSource

end ClassAudit
