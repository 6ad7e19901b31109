import Mathlib.Data.List.Induction
import ClassAudit.Proofs.Files.Pruning

/-! # Putting a file into a tree

    A new file is put into the directory at the end of some names. Taking it away again gives the
    tree as it has been before, so that what is known about taking files away can be read the other
    way around.
-/

namespace ClassAudit

/-! ### Directories inside a directory -/

namespace Directory

variable {gone : Location → Nat → Bool}

/-- The directory at the end of some names. -/
def descend? : Directory → List ByteString → Option Directory
  | d, [] => some d
  | d, name :: names =>
    match d.lookup name with
    | some (.directory inner) => descend? inner names
    | _ => none

theorem descend?_append (d : Directory) (names more : List ByteString) :
    d.descend? (names ++ more) = (d.descend? names).bind (·.descend? more) := by
  induction names generalizing d with
  | nil => rfl
  | cons name names ih =>
    rw [List.cons_append, descend?, descend?]
    split
    · exact ih _
    · rfl

/-- An entry of a directory when the directory at the end of some names is changed. -/
def modifyEntry (f : Directory → Directory) (name : ByteString) (names : List ByteString)
    (p : ByteString × FileEntry) : ByteString × FileEntry :=
  match p.2 with
  | .directory inner => (p.1, .directory (if p.1 = name then modify f names inner else inner))
  | e => (p.1, e)

theorem modify_cons (f : Directory → Directory) (name : ByteString) (names : List ByteString)
    (d : Directory) : d.modify f (name :: names) = d.map (modifyEntry f name names) := by
  rw [modify]
  refine List.map_congr_left fun p _ => ?_
  obtain ⟨n, e⟩ := p
  cases e <;> rfl

theorem fst_modifyEntry (f : Directory → Directory) (name : ByteString)
    (names : List ByteString) (p : ByteString × FileEntry) :
    (modifyEntry f name names p).1 = p.1 := by
  obtain ⟨n, e⟩ := p
  cases e <;> rfl

theorem map_fst_modify_cons (f : Directory → Directory) (name : ByteString)
    (names : List ByteString) (d : Directory) :
    (d.modify f (name :: names)).map Prod.fst = d.map Prod.fst := by
  rw [modify_cons, List.map_map]
  exact List.map_congr_left fun p _ => fst_modifyEntry f name names p

/-- The directory at the end of the names has been changed. -/
theorem descend?_modify (f : Directory → Directory) (names : List ByteString) (d : Directory) :
    (d.modify f names).descend? names = (d.descend? names).map f := by
  induction names generalizing d with
  | nil => rfl
  | cons name names ih =>
    have hlookup : (d.modify f (name :: names)).lookup name =
        (d.lookup name).map fun e => (modifyEntry f name names (name, e)).2 := by
      rw [modify_cons]
      induction d with
      | nil => rfl
      | cons p d ih =>
        by_cases hname : name = p.1
        · obtain ⟨n, e⟩ := p
          obtain rfl : name = n := hname
          rw [List.map_cons, List.lookup_cons, fst_modifyEntry, List.lookup_cons]
          simp
        · rw [List.map_cons, List.lookup_cons, fst_modifyEntry, List.lookup_cons,
            beq_false_of_ne hname]
          exact ih
    rw [descend?, descend?, hlookup]
    cases d.lookup name with
    | none => rfl
    | some e =>
      cases e with
      | directory inner => simpa [modifyEntry] using ih inner
      | file number => rfl
      | link target => rfl

theorem prune_of_forall_mem {l : Location} {d : Directory}
    (h : ∀ p ∈ d, pruneEntry gone l p = some p) : d.prune gone l = d := by
  rw [prune_eq_filterMap, List.filterMap_congr h, List.filterMap_some]

end Directory

mutual

theorem FileEntry.prune_eq_self {gone : Location → Nat → Bool} {l : Location} :
    (e : FileEntry) → (∀ name rest number, gone (l ++ name :: rest) number = false) →
      e.prune gone l = e
  | .file _, _ => by rw [FileEntry.prune]
  | .directory entries, h => by rw [FileEntry.prune, Directory.prune_eq_self entries h]
  | .link _, _ => by rw [FileEntry.prune]

/-- Where nothing in a directory and below is taken away, it stays as it is. -/
theorem Directory.prune_eq_self {gone : Location → Nat → Bool} {l : Location} :
    (d : Directory) → (∀ name rest number, gone (l ++ name :: rest) number = false) →
      d.prune gone l = d
  | [], _ => by rw [Directory.prune]
  | (name, e) :: entries, h => by
    have hgone : e.isGone gone (l ++ [name]) = false := by
      cases e with
      | file number => exact h name [] number
      | directory entries => rfl
      | link target => rfl
    have hbelow : ∀ n rest number, gone (l ++ [name] ++ n :: rest) number = false := by
      intro n rest number
      rw [List.append_assoc]
      exact h name (n :: rest) number
    rw [Directory.prune, hgone, FileEntry.prune_eq_self e hbelow, Directory.prune_eq_self entries h]
    rfl

end

namespace Directory

/-- A directory in which a file has been made is, without that file, what it has been before. -/
theorem prune_modify_put (l : Location) {names : List ByteString} {name : ByteString}
    {d inner : Directory} (number : Nat) (hd : (FileEntry.directory d).WellFormed)
    (hinner : d.descend? names = some inner) (hfree : inner.lookup name = none) :
    (d.modify (·.put name (.file number)) names).prune
      (fun l' _ => l' = l ++ names ++ [name]) l = d := by
  induction names generalizing l d with
  | nil =>
    obtain rfl := Option.some.inj hinner
    have hgone : (FileEntry.file number).isGone (fun l' _ => l' = l ++ [] ++ [name])
        (l ++ [name]) := by
      simp [FileEntry.isGone]
    rw [modify, put, prune, if_pos hgone]
    -- The other entries have other names, so that nothing below them is taken away.
    refine prune_of_forall_mem fun p hp => ?_
    have hne : p.1 ≠ name := by
      intro heq
      rw [List.lookup_eq_none_iff] at hfree
      simpa [heq] using hfree p hp
    have hkept : p.2.isGone (fun l' _ => l' = l ++ [] ++ [name]) (l ++ [p.1]) = false := by
      cases hp' : p.2 <;> simp [FileEntry.isGone, hne]
    rw [pruneEntry, hkept, FileEntry.prune_eq_self]
    · rfl
    · simp [hne]
  | cons first names ih =>
    cases hd with
    | directory nodup isName below =>
      rw [modify_cons, prune_eq_filterMap, List.filterMap_map]
      conv => rhs; rw [← List.filterMap_some (l := d)]
      refine List.filterMap_congr fun p hp => ?_
      obtain ⟨n, e⟩ := p
      cases e with
      | file number => simp [modifyEntry, pruneEntry, FileEntry.isGone, FileEntry.prune]
      | link target => simp [modifyEntry, pruneEntry, FileEntry.isGone, FileEntry.prune]
      | directory d' =>
        have hprune : prune (fun l' _ => l' = l ++ first :: names ++ [name]) (l ++ [n])
            (if n = first then modify (·.put name (.file number)) names d' else d') = d' := by
          -- As names are different, the entry with the first name is the one that is descended to.
          split
          · rename_i hn
            subst hn
            rw [descend?, lookup_of_mem nodup hp] at hinner
            simpa using ih (l := l ++ [n]) (below _ hp) hinner
          · rename_i hn
            exact prune_eq_self d' fun _ _ _ => by simp [hn]
        simpa [modifyEntry, pruneEntry, FileEntry.isGone, FileEntry.prune] using hprune

/-- A directory in which an entry has been put is well-formed if all is well-formed. -/
theorem wellFormed_modify_put {names : List ByteString} {name : ByteString} {e : FileEntry}
    {d inner : Directory} (hd : (FileEntry.directory d).WellFormed) (he : e.WellFormed)
    (hname : Path.IsEntryName name) (hinner : d.descend? names = some inner)
    (hfree : inner.lookup name = none) :
    (FileEntry.directory (d.modify (·.put name e) names)).WellFormed := by
  induction names generalizing d with
  | nil =>
    obtain rfl := Option.some.inj hinner
    cases hd with
    | directory nodup isName below =>
      rw [modify, put]
      refine .directory ?_ ?_ ?_
      · refine List.nodup_cons.mpr ⟨fun hmem => ?_, nodup⟩
        obtain ⟨p, hp, hpname⟩ := List.mem_map.mp hmem
        rw [List.lookup_eq_none_iff] at hfree
        simpa [hpname] using hfree p hp
      · exact List.forall_mem_cons.mpr ⟨hname, isName⟩
      · exact List.forall_mem_cons.mpr ⟨he, below⟩
  | cons first names ih =>
    cases hd with
    | directory nodup isName below =>
      refine .directory ?_ ?_ ?_
      · rw [map_fst_modify_cons]
        exact nodup
      · rw [modify_cons, List.forall_mem_map]
        intro p hp
        rw [fst_modifyEntry]
        exact isName p hp
      · rw [modify_cons, List.forall_mem_map]
        rintro ⟨n, e'⟩ hp
        cases e' with
        | file number => exact .file number
        | link target => exact .link target
        | directory d' =>
          by_cases hn : n = first
          · subst hn
            rw [descend?, lookup_of_mem nodup hp] at hinner
            simpa [modifyEntry] using ih (below _ hp) hinner
          · simpa [modifyEntry, hn] using below _ hp

end Directory

namespace FileTree

variable {t t' : FileTree}

/-! ### Places by their names -/

theorem Stands.descend?_eq {place : Place} (h : Stands t place) :
    t.root.descend? (location place) = some (t.directoryAt place) := by
  induction h with
  | root => rfl
  | enter _ hlookup ih =>
    rw [location_cons, Directory.descend?_append, ih, Option.bind_some, Directory.descend?, hlookup]
    rfl

theorem exists_stands_of_descend? {l : Location} {d : Directory}
    (h : t.root.descend? l = some d) :
    ∃ place, Stands t place ∧ location place = l ∧ t.directoryAt place = d := by
  induction l using List.reverseRecOn generalizing d with
  | nil => exact ⟨[], .root, rfl, Option.some.inj h⟩
  | append_singleton l name ih =>
    rw [Directory.descend?_append] at h
    obtain ⟨outer, houter, h⟩ := Option.bind_eq_some_iff.mp h
    obtain ⟨place, hplace, rfl, rfl⟩ := ih houter
    rw [Directory.descend?] at h
    split at h
    · rename_i inner hlookup
      obtain rfl := Option.some.inj h
      exact ⟨_, .enter hplace hlookup, location_cons _ _ _, rfl⟩
    · cases h

/-- What stands under a name at a place is what the directory there has under it. -/
theorem Stands.lookup_of_holds {place : Place} {name : ByteString} {e : FileEntry}
    (hplace : Stands t place) (h : t.Holds (location place ++ [name]) e) :
    (t.directoryAt place).lookup name = some e := by
  generalize hl : location place ++ [name] = l at h
  cases h with
  | root => simp at hl
  | @entry place' name' _ hplace' hlookup =>
    obtain ⟨hlocation, hname⟩ := List.append_inj' hl rfl
    have hat := hplace.descend?_eq
    rw [hlocation, hplace'.descend?_eq] at hat
    rw [← Option.some.inj hat, (List.cons.inj hname).1]
    exact hlookup

theorem Holds.unique {l : Location} {e e' : FileEntry} (h : t.Holds l e) (h' : t.Holds l e') :
    e = e' := by
  cases h with
  | root =>
    generalize hl : ([] : Location) = l at h'
    cases h' with
    | root => rfl
    | entry _ _ => simp at hl
  | entry hplace hlookup =>
    exact Option.some.inj (hlookup.symm.trans (hplace.lookup_of_holds h'))

end FileTree

end ClassAudit
