import ClassAudit.Proofs.Files.Addition
import ClassAudit.Proofs.Files.Walk

/-! # Writing files

    Where a path leads to a name that is free, writing makes a file there. The path then leads to
    the file, the file holds what has been written, and no other file can be told from what it has
    been before.

    * `Sound` is what a tree needs for that: its names are names, and its files have contents.
    * `Gains` says that a tree has some new files and is otherwise as before.
-/

namespace ClassAudit

variable {wantDirectory : Bool} {fuel links number : Nat} {place : Place} {name : ByteString}
  {goal : Target} {names : List ByteString} {path : Path} {l : Location}
  {gone : Location → Nat → Bool} {e : FileEntry} {bytes : List UInt8}

/-! ### Well-formed entries -/

mutual

def FileEntry.isWellFormed : FileEntry → Bool
  | .file _ | .link _ => true
  | .directory entries => decide (entries.map Prod.fst).Nodup && Directory.isWellFormed entries

/-- Whether the names in a directory are names and the entries are well-formed. -/
def Directory.isWellFormed : Directory → Bool
  | [] => true
  | (name, e) :: entries =>
    decide (Path.IsEntryName name) && e.isWellFormed && Directory.isWellFormed entries

end

mutual

theorem FileEntry.wellFormed_of_isWellFormed :
    (e : FileEntry) → e.isWellFormed = true → e.WellFormed
  | .file number, _ => .file number
  | .link target, _ => .link target
  | .directory entries, h => by
    rw [FileEntry.isWellFormed, Bool.and_eq_true] at h
    have hentries := Directory.wellFormed_of_isWellFormed entries h.2
    exact .directory (of_decide_eq_true h.1) (fun p hp => (hentries p hp).1)
      fun p hp => (hentries p hp).2

theorem Directory.wellFormed_of_isWellFormed : (d : Directory) → d.isWellFormed = true →
    ∀ p ∈ d, Path.IsEntryName p.1 ∧ p.2.WellFormed
  | [], _ => fun p hp => nomatch hp
  | (name, e) :: entries, h => by
    rw [Directory.isWellFormed, Bool.and_eq_true, Bool.and_eq_true] at h
    exact List.forall_mem_cons.mpr
      ⟨⟨of_decide_eq_true h.1.1, FileEntry.wellFormed_of_isWellFormed e h.1.2⟩,
        Directory.wellFormed_of_isWellFormed entries h.2⟩

end

namespace FileTree

variable {t t' : FileTree}

/-! ### Paths to write to -/

theorem target_of_write (h : t.target true true path = .ok goal) :
    t.target true false path = .ok goal := by
  obtain ⟨start, hfault, hstart, harrives⟩ := exists_arrives h
  rw [target_eq_walk hfault hstart]
  exact harrives.walk_eq

theorem lookup_of_step_absent (hstep : t.step place name = .absent) :
    (t.directoryAt place).lookup name = none := by
  unfold step at hstep
  split_ifs at hstep
  split at hstep
  · assumption
  · cases hstep
  · cases hstep
  · cases hstep

/-- A place for a new file: a directory, and a name that it does not have. -/
structure IsFree (t : FileTree) (place : Place) (name : ByteString) : Prop where
  stands : Stands t place
  isEntryName : Path.IsEntryName name
  lookup : (t.directoryAt place).lookup name = none

theorem IsFree.of_step (hplace : Stands t place) (hname : Path.IsName name)
    (hstep : t.step place name = .absent) : t.IsFree place name := by
  have hlookup := lookup_of_step_absent hstep
  unfold step at hstep
  split_ifs at hstep with hhere habove
  exact ⟨hplace, ⟨hname, hhere, habove⟩, hlookup⟩

/-- Where a walk finds that a name is free, it is. -/
theorem Arrives.exists_isFree (h : Arrives t true true wantDirectory fuel links place names goal)
    (hplace : Stands t place) (hnames : ∀ name ∈ names, Path.IsName name)
    (hgoal : goal = .free l) :
    ∃ place' name, t.IsFree place' name ∧ l = location place' ++ [name] := by
  induction h with
  | here => cases hgoal
  | enter hstep _ ih =>
    exact ih (hplace.of_step hstep) (List.forall_mem_cons.mp hnames).2 hgoal
  | file _ => cases hgoal
  | link _ _ => cases hgoal
  | @free _ _ _ place name _ hstep =>
    have hname := hnames name List.mem_cons_self
    exact ⟨place, name, IsFree.of_step hplace hname hstep, (Target.free.inj hgoal).symm⟩
  | through _ _ _ ih =>
    refine ih (hplace.of_link _) (fun n hn => ?_) hgoal
    rcases List.mem_append.mp hn with hn | hn
    · exact Path.isName_of_mem_names hn
    · exact hnames n (List.mem_cons_of_mem _ hn)

theorem exists_isFree (h : t.target true true path = .ok (.free l)) :
    ∃ place name, t.IsFree place name ∧ l = location place ++ [name] := by
  obtain ⟨start, -, hstart, harrives⟩ := exists_arrives h
  exact harrives.exists_isFree (stands_of_start hstart) (fun _ => Path.isName_of_mem_names) rfl

/-! ### What comes back -/

/-- A walk that has to go through a file finds nothing when files are taken away. -/
theorem Pruned.walk_ne_found (h : Pruned gone t t') {follow : Bool} (hplace : Stands t place)
    (hfile : walk t follow false wantDirectory fuel links place names = .error .notDirectory) :
    walk t' follow false wantDirectory fuel links (prunePlace gone place) names ≠
      .ok (.found l e) := by
  induction fuel generalizing wantDirectory links place names with
  | zero => cases names <;> cases hfile
  | succ fuel ih =>
    cases names with
    | nil => cases hfile
    | cons name names =>
      rw [walk_cons] at hfile
      rw [walk_cons, h.step_eq hplace]
      cases hstep : t.step place name with
      | enter place' =>
        rw [hstep] at hfile
        exact ih (hplace.of_step hstep) hfile
      | file number =>
        rw [hstep] at hfile
        dsimp only [Step.prune] at hfile ⊢
        by_cases hend : names.isEmpty && !wantDirectory
        · rw [if_pos hend] at hfile
          cases hfile
        -- The path goes on behind the file, which is no better if there is no file.
        · by_cases hgone : gone (location place ++ [name]) number
          · rw [if_pos hgone]
            dsimp only
            split <;> exact fun heq => nomatch heq
          · rw [if_neg hgone]
            dsimp only
            rw [if_neg hend]
            exact fun heq => nomatch heq
      | absent =>
        dsimp only [Step.prune]
        split <;> exact fun heq => nomatch heq
      | tooLong => exact fun heq => nomatch heq
      | link target =>
        rw [hstep] at hfile
        dsimp only [Step.prune] at hfile ⊢
        by_cases hend : names.isEmpty && !follow && !wantDirectory
        · rw [if_pos hend] at hfile
          cases hfile
        · rw [if_neg hend] at hfile ⊢
          cases links with
          | zero => exact fun heq => nomatch heq
          | succ links =>
            dsimp only
            rw [← prunePlace_of_link]
            exact ih (hplace.of_link target) hfile

/-- What a path leads to after files have been taken away is left of what it has led to before. -/
theorem Pruned.exists_found (h : Pruned gone t t') {follow : Bool} {e' : FileEntry}
    (hfound : t'.target follow false path = .ok (.found l e')) :
    ∃ e, t.target follow false path = .ok (.found l e) ∧ e' = e.prune gone l := by
  have hfile : t.target follow false path ≠ .error .notDirectory := by
    intro hfile
    obtain ⟨start', hfault, hstart'⟩ := exists_start_of_target hfound
    obtain ⟨start, hstart, rfl⟩ :=
      Option.map_eq_some_iff.mp ((h.start_eq path).symm.trans hstart')
    rw [target_eq_walk hfault hstart] at hfile
    rw [target_eq_walk hfault hstart'] at hfound
    exact h.walk_ne_found (stands_of_start hstart) hfile hfound
  rw [h.target_eq hfile] at hfound
  cases htarget : t.target follow false path with
  | error reason =>
    rw [htarget] at hfound
    cases hfound
  | ok goal =>
    rw [htarget] at hfound
    cases goal with
    | free l' => cases hfound
    | found l' e =>
      have hprune : Target.prune gone (.found l' e) = .found l e' := Except.ok.inj hfound
      rw [Target.prune] at hprune
      split at hprune
      · cases hprune
      · obtain ⟨rfl, rfl⟩ := Target.found.inj hprune
        exact ⟨e, rfl, rfl⟩

section Entry

variable {gone : Location → Nat → Bool} {l : Location} {e : FileEntry}

theorem eq_file_of_prune (h : .file number = e.prune gone l) : e = .file number := by
  cases e <;> rw [FileEntry.prune] at h <;> cases h
  rfl

theorem exists_directory_of_prune {d : Directory} (h : .directory d = e.prune gone l) :
    ∃ d', e = .directory d' := by
  cases e <;> rw [FileEntry.prune] at h <;> cases h
  exact ⟨_, rfl⟩

end Entry

theorem Pruned.leads_file (h : Pruned gone t t') (hleads : t'.Leads path l (.file number)) :
    t.Leads path l (.file number) := by
  obtain ⟨e, htarget, he⟩ := h.exists_found hleads
  rwa [eq_file_of_prune he] at htarget

section Step

variable {gone : Location → Nat → Bool} {l : Location} {s : Step}

theorem Step.exists_enter_of_prune (h : s.prune gone l = .enter place) :
    ∃ place', s = .enter place' ∧ place = prunePlace gone place' := by
  cases s with
  | enter place' => exact ⟨place', rfl, (Step.enter.inj h).symm⟩
  | file number =>
    rw [prune] at h
    split at h <;> cases h
  | link target => cases h
  | absent => cases h
  | tooLong => cases h

theorem Step.eq_link_of_prune {target : Path} (h : s.prune gone l = .link target) :
    s = .link target := by
  cases s with
  | link target => exact h
  | file number =>
    rw [prune] at h
    split at h <;> cases h
  | enter place => cases h
  | absent => cases h
  | tooLong => cases h

theorem Step.absent_or_file_of_prune (h : s.prune gone l = .absent) :
    s = .absent ∨ ∃ number, s = .file number := by
  cases s with
  | absent => exact .inl rfl
  | file number => exact .inr ⟨number, rfl⟩
  | enter place => cases h
  | link target => cases h
  | tooLong => cases h

end Step

/-- Where a name is free when a file is taken away, the path leads to the file. -/
theorem Pruned.walk_of_free (h : Pruned gone t t') (hplace : Stands t place)
    (hholds : t.Holds l (.file number))
    (hfree : Arrives t' true true wantDirectory fuel links (prunePlace gone place) names (.free l)) :
    walk t true false wantDirectory fuel links place names = .ok (.found l (.file number)) := by
  generalize hpruned : prunePlace gone place = place' at hfree
  generalize hgoal : Target.free l = goal at hfree
  induction hfree generalizing place with
  | here => cases hgoal
  | enter hstep _ ih =>
    obtain rfl := hpruned
    rw [h.step_eq hplace] at hstep
    obtain ⟨next, henter, rfl⟩ := Step.exists_enter_of_prune hstep
    rw [walk_cons, henter]
    exact ih (hplace.of_step henter) rfl hgoal
  | file _ => cases hgoal
  | link hfollow _ => cases hfollow
  | free hend hstep =>
    -- This is where the file stands.
    obtain rfl := hpruned
    rw [location_prunePlace] at hgoal
    obtain rfl := Target.free.inj hgoal
    have hlookup := hplace.lookup_of_holds hholds
    rw [h.step_eq hplace] at hstep
    rcases Step.absent_or_file_of_prune hstep with hstep | ⟨number', hstep⟩
    · rw [lookup_of_step_absent hstep] at hlookup
      cases hlookup
    · rw [lookup_of_step_file hstep] at hlookup
      rw [walk_cons, hstep, FileEntry.file.inj (Option.some.inj hlookup), hend rfl]
      rfl
  | through _ hstep _ ih =>
    obtain rfl := hpruned
    rw [h.step_eq hplace] at hstep
    rw [walk_cons, Step.eq_link_of_prune hstep]
    simpa using ih (hplace.of_link _) (prunePlace_of_link _ _) hgoal

theorem Pruned.leads_of_free (h : Pruned gone t t') (hholds : t.Holds l (.file number))
    (hfree : t'.target true true path = .ok (.free l)) : t.Leads path l (.file number) := by
  obtain ⟨start', hfault, hstart', harrives⟩ := exists_arrives hfree
  obtain ⟨start, hstart, rfl⟩ := Option.map_eq_some_iff.mp ((h.start_eq path).symm.trans hstart')
  rw [Leads, target_eq_walk hfault hstart]
  exact h.walk_of_free (stands_of_start hstart) hholds harrives

theorem Pruned.stands (h : Pruned gone t t') (hplace : Stands t place) :
    Stands t' (prunePlace gone place) := by
  induction hplace with
  | root => exact .root
  | enter hplace hlookup ih =>
    refine .enter ih ?_
    rw [h.lookup_eq hplace, hlookup, location_cons]
    rfl

/-- What stands in a tree is still there, unless it is a file that is taken away. -/
theorem Pruned.holds (h : Pruned gone t t') (hholds : t.Holds l e)
    (hgone : e.isGone gone l = false) : t'.Holds l (e.prune gone l) := by
  cases hholds with
  | root =>
    rw [FileEntry.prune, ← h.root]
    exact .root
  | entry hplace hlookup =>
    rw [← location_prunePlace] at hgone ⊢
    refine .entry (h.stands hplace) ?_
    rw [h.lookup_eq hplace, hlookup, Option.bind_some, ← location_prunePlace, hgone]
    rfl

/-! ### Trees whose files have contents -/

/-- A tree as it comes to be by making directories, links and files: names are names, and different
    ones in each directory, and there is a content for each file. -/
structure Sound (t : FileTree) : Prop where
  wellFormed : (FileEntry.directory t.root).WellFormed
  numbered : ∀ l number, t.Holds l (.file number) → number < t.contents.size

def isSound (t : FileTree) : Bool :=
  (FileEntry.directory t.root).isWellFormed &&
    (filesIn [] t.root).all fun p => decide (p.2 < t.contents.size)

theorem sound_of_isSound (h : t.isSound = true) : t.Sound := by
  rw [isSound, Bool.and_eq_true, List.all_eq_true] at h
  refine ⟨FileEntry.wellFormed_of_isWellFormed _ h.1, fun l number hholds => ?_⟩
  exact of_decide_eq_true (h.2 _ hholds.mem_filesIn)

theorem content_create (h : number < t.contents.size) :
    (t.create l bytes).content number = t.content number := by
  unfold content create
  rw [Array.getElem?_push_lt h]
  simp [h]

theorem toList_content_create_size :
    ((t.create l bytes).content t.contents.size).toList = bytes := by
  unfold content create
  rw [Array.getElem?_push_size, Option.getD_some, Text.toList_eq_data_toList,
    List.toList_data_toByteArray]

theorem create_append (place : Place) (name : ByteString) (bytes : List UInt8) :
    (t.create (location place ++ [name]) bytes).root =
      t.root.modify (·.put name (.file t.contents.size)) (location place) := by
  simp [create, set]

section Create

variable (hs : t.Sound) {path : Path} {l : Location} (bytes : List UInt8)
include hs

/-- A tree is what is left of itself with a new file when that file is taken away. -/
theorem Sound.pruned_create (hfree : t.target true true path = .ok (.free l)) :
    Pruned (fun l' _ => l' = l) (t.create l bytes) t := by
  obtain ⟨place, name, hname, rfl⟩ := exists_isFree hfree
  have hinner := hname.stands.descend?_eq
  refine ⟨?_, ?_, ?_⟩
  · rw [create_append]
    exact Directory.wellFormed_modify_put hs.wellFormed (.file _) hname.isEntryName hinner
      hname.lookup
  · have hprune := Directory.prune_modify_put [] t.contents.size hs.wellFormed hinner
      hname.lookup
    rw [create_append]
    exact hprune.symm
  · simp [create, set]

omit hs in
theorem holds_create (hfree : t.target true true path = .ok (.free l)) :
    (t.create l bytes).Holds l (.file t.contents.size) := by
  obtain ⟨place, name, hname, rfl⟩ := exists_isFree hfree
  have hinner : (t.create (location place ++ [name]) bytes).root.descend? (location place) =
      some ((t.directoryAt place).put name (.file t.contents.size)) := by
    rw [create_append, Directory.descend?_modify, hname.stands.descend?_eq]
    rfl
  obtain ⟨place', hplace', hlocation, hdirectory⟩ := exists_stands_of_descend? hinner
  have hlookup : (t.create (location place ++ [name]) bytes |>.directoryAt place').lookup name =
      some (.file t.contents.size) := by
    rw [hdirectory, Directory.put, List.lookup_cons, BEq.rfl]
  have hholds := Holds.entry hplace' hlookup
  rwa [hlocation] at hholds

theorem Sound.create (hfree : t.target true true path = .ok (.free l)) :
    (t.create l bytes).Sound := by
  have hpruned := hs.pruned_create bytes hfree
  refine ⟨hpruned.wellFormed, fun l' number hholds => ?_⟩
  have hsize : (t.create l bytes).contents.size = t.contents.size + 1 := by
    simp [FileTree.create]
  rw [hsize]
  -- The new file has the number of the new content. The others have been there before.
  by_cases hl : l' = l
  · rw [hl] at hholds
    rw [FileEntry.file.inj (hholds.unique (holds_create bytes hfree))]
    exact Nat.lt_succ_self _
  · have hkept : (FileEntry.file number).isGone (fun l' _ => l' = l) l' = false := by
      simp [FileEntry.isGone, hl]
    have hheld := hpruned.holds hholds hkept
    rw [FileEntry.prune] at hheld
    exact Nat.lt_succ_of_lt (hs.numbered l' number hheld)

theorem Sound.leads_create (hfree : t.target true true path = .ok (.free l)) :
    (t.create l bytes).Leads path l (.file t.contents.size) :=
  (hs.pruned_create bytes hfree).leads_of_free (holds_create bytes hfree) hfree

theorem Sound.read_create_of_read (hfree : t.target true true path = .ok (.free l)) {other : Path}
    {content : List UInt8} (hread : t.read other = .ok content) :
    (t.create l bytes).read other = .ok content := by
  obtain ⟨l', number, hleads⟩ := exists_leads_of_read hread
  rw [((hs.pruned_create bytes hfree).leads_file hleads).read_eq,
    content_create (hs.numbered l' number (holds_of_target hleads)), ← hleads.read_eq, hread]

/-- What can be read when a file has been made could be read before, or is that file. -/
theorem Sound.read_of_read_create (hfree : t.target true true path = .ok (.free l)) {other : Path}
    {content : List UInt8} (hread : (t.create l bytes).read other = .ok content) :
    t.read other = .ok content ∨ ∃ number, (t.create l bytes).Leads other l (.file number) := by
  obtain ⟨l', number, hleads⟩ := exists_leads_of_read hread
  by_cases hl : l' = l
  · exact .inr ⟨number, hl ▸ hleads⟩
  · have hkept : (FileEntry.file number).isGone (fun l' _ => l' = l) l' = false := by
      simp [FileEntry.isGone, hl]
    have hleads' := (hs.pruned_create bytes hfree).leads hleads hkept
    rw [FileEntry.prune] at hleads'
    rw [hleads.read_eq, content_create (hs.numbered l' number (holds_of_target hleads'))] at hread
    exact .inl (hleads'.read_eq.trans hread)

end Create

/-! ### Writing -/

theorem Sound.leads_contents (hs : t.Sound) (h : t.Leads path l (.file number))
    (contents : Array ByteArray) : Leads { t with contents } path l (.file number) := by
  have hpruned : Pruned (fun _ _ => false) t { t with contents } :=
    ⟨hs.wellFormed, (Directory.prune_eq_self t.root fun _ _ _ => rfl).symm, rfl⟩
  simpa [FileEntry.prune] using hpruned.leads h rfl

theorem Sound.read_write (hs : t.Sound) (h : t.write path bytes = .ok t') :
    t'.read path = .ok bytes := by
  unfold write at h
  split at h
  · cases h
  · rename_i l htarget
    obtain rfl := Except.ok.inj h
    rw [(hs.leads_create bytes htarget).read_eq, toList_content_create_size]
  -- A file that exists stays where it is and gets another content.
  · rename_i l number htarget
    have hleads : t.Leads path l (.file number) := target_of_write htarget
    have hnumber := hs.numbered l number (holds_of_target hleads)
    obtain rfl := Except.ok.inj h
    rw [(hs.leads_contents hleads _).read_eq, content]
    simp [hnumber, Text.toList_eq_data_toList]
  · cases h

/-- Where the error is put into other words, the tree is the same. -/
theorem write_of_mapError {ε : Type} {f : FileError → ε}
    (h : (t.write path bytes).mapError f = .ok t') : t.write path bytes = .ok t' := by
  cases hwrite : t.write path bytes with
  | error e => rw [hwrite] at h; cases h
  | ok t =>
    rw [hwrite] at h
    cases h
    rfl

/-! ### New files -/

theorem Leads.contains_eq (h : t.Leads path l e) : t.contains path = true := by
  rw [contains, stat, look_of_target h]

theorem exists_free_of_write (hnew : t.contains path = false) (h : t.write path bytes = .ok t') :
    ∃ l, t.target true true path = .ok (.free l) ∧ t' = t.create l bytes := by
  unfold write at h
  split at h
  · cases h
  · rename_i l htarget
    exact ⟨l, htarget, (Except.ok.inj h).symm⟩
  · rename_i l number htarget
    have hleads : t.Leads path l (.file number) := target_of_write htarget
    rw [hleads.contains_eq] at hnew
    cases hnew
  · cases h

theorem ne_of_write (hnew : t.contains path = false) (h : t.write path bytes = .ok t') :
    t' ≠ t := by
  obtain ⟨l, -, rfl⟩ := exists_free_of_write hnew h
  intro heq
  have hsize := congrArg (fun t => t.contents.size) heq
  simp [create] at hsize

/-- Two paths lead to the same file. -/
def SameFile (t : FileTree) (path other : Path) : Prop :=
  ∃ l number, t.Leads path l (.file number) ∧ t.Leads other l (.file number)

/-- A tree has come to have new files under some paths, and is otherwise as before: all files have
    kept their contents, and no directory has come or gone. -/
structure Gains (t t' : FileTree) (new : List Path) : Prop where
  sound : t'.Sound
  leads : ∀ {path l number}, t.Leads path l (.file number) → t'.Leads path l (.file number)
  keeps : ∀ {path bytes}, t.read path = .ok bytes → t'.read path = .ok bytes
  files : ∀ {path bytes}, t'.read path = .ok bytes →
    t.read path = .ok bytes ∨ ∃ p ∈ new, t'.SameFile path p
  directories : ∀ path, (∃ d, t.list path = .ok d) ↔ ∃ d, t'.list path = .ok d

theorem Gains.refl (hs : t.Sound) : Gains t t [] :=
  ⟨hs, id, id, .inl, fun _ => Iff.rfl⟩

theorem Gains.trans {t'' : FileTree} {new more : List Path} (h : Gains t t' new)
    (h' : Gains t' t'' more) : Gains t t'' (new ++ more) where
  sound := h'.sound
  leads hleads := h'.leads (h.leads hleads)
  keeps hread := h'.keeps (h.keeps hread)
  files hread := by
    rcases h'.files hread with hread | ⟨p, hp, hsame⟩
    · rcases h.files hread with hread | ⟨p, hp, l, number, hpath, hother⟩
      · exact .inl hread
      · exact .inr ⟨p, List.mem_append_left _ hp, l, number, h'.leads hpath, h'.leads hother⟩
    · exact .inr ⟨p, List.mem_append_right _ hp, hsame⟩
  directories path := (h.directories path).trans (h'.directories path)

/-- Writing a file where there is nothing makes this file and no other. -/
theorem Gains.of_write (hs : t.Sound) (hnew : t.contains path = false)
    (h : t.write path bytes = .ok t') : Gains t t' [path] := by
  obtain ⟨l, hfree, rfl⟩ := exists_free_of_write hnew h
  have hpruned := hs.pruned_create bytes hfree
  refine ⟨hs.create bytes hfree, hpruned.leads_file, hs.read_create_of_read bytes hfree, ?_, ?_⟩
  · intro other content hread
    rcases hs.read_of_read_create bytes hfree hread with hread | ⟨number, hleads⟩
    · exact .inl hread
    -- What the path leads to can only be the new file, as a place holds one entry.
    · have hholds := (holds_of_target hleads).unique (holds_create bytes hfree)
      rw [hholds] at hleads
      exact .inr ⟨path, List.mem_singleton_self path, l, _, hleads, hs.leads_create bytes hfree⟩
  · intro other
    constructor
    · rintro ⟨d, hlist⟩
      obtain ⟨l', d', hleads⟩ := exists_leads_of_list hlist
      obtain ⟨e, htarget, he⟩ := hpruned.exists_found hleads
      obtain ⟨d'', rfl⟩ := exists_directory_of_prune he
      exact ⟨_, Leads.list_eq htarget⟩
    · rintro ⟨d, hlist⟩
      obtain ⟨l', d', hleads⟩ := exists_leads_of_list hlist
      have hleads' := hpruned.leads hleads rfl
      rw [FileEntry.prune] at hleads'
      exact ⟨_, hleads'.list_eq⟩

end FileTree

end ClassAudit
