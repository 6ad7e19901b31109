import ClassAudit.Proofs.Files.Place

/-! # Taking files away

    A tree is pruned by a condition on files, each given by its place and its number. Nothing else
    changes: directories and links stay, and so does the order of names. So a path leads to the same
    place before and after, unless a file that is taken away stands at its end or in its way.
-/

namespace ClassAudit

variable {name : ByteString} {e : FileEntry} {place : Place} {l : Location} {follow : Bool}
  {path : Path}

/-! ### Entries -/

/-- The names in a directory are names, and different ones, also in all directories below. -/
inductive FileEntry.WellFormed : FileEntry → Prop
  | file (number : Nat) : WellFormed (.file number)
  | link (target : Path) : WellFormed (.link target)
  | directory {d : Directory} (nodup : (d.map Prod.fst).Nodup)
    (isName : ∀ p ∈ d, Path.IsEntryName p.1) (below : ∀ p ∈ d, WellFormed p.2) :
    WellFormed (.directory d)

/-- Whether an entry at a place is a file that a condition holds for. -/
def FileEntry.isGone (gone : Location → Nat → Bool) (l : Location) : FileEntry → Bool
  | .file number => gone l number
  | .directory _ | .link _ => false

mutual

/-- An entry at a place without the files below it that a condition holds for. -/
def FileEntry.prune (gone : Location → Nat → Bool) (l : Location) : FileEntry → FileEntry
  | .file number => .file number
  | .directory entries => .directory (Directory.prune gone l entries)
  | .link target => .link target

/-- A directory at a place without the files in it and below it that a condition holds for. -/
def Directory.prune (gone : Location → Nat → Bool) (l : Location) : Directory → Directory
  | [] => []
  | (name, e) :: entries =>
    if e.isGone gone (l ++ [name]) then Directory.prune gone l entries
    else (name, e.prune gone (l ++ [name])) :: Directory.prune gone l entries

end

namespace Directory

variable {gone : Location → Nat → Bool} {l : Location} {d : Directory}

/-- What is left of an entry of a directory. -/
def pruneEntry (gone : Location → Nat → Bool) (l : Location) (p : ByteString × FileEntry) :
    Option (ByteString × FileEntry) :=
  if p.2.isGone gone (l ++ [p.1]) then none else some (p.1, p.2.prune gone (l ++ [p.1]))

theorem prune_eq_filterMap (d : Directory) : d.prune gone l = d.filterMap (pruneEntry gone l) := by
  induction d with
  | nil => rw [prune, List.filterMap_nil]
  | cons p d ih =>
    obtain ⟨name, e⟩ := p
    rw [prune, List.filterMap_cons, pruneEntry, ih]
    split <;> rfl

theorem fst_of_pruneEntry {p q : ByteString × FileEntry} (h : pruneEntry gone l p = some q) :
    q.1 = p.1 := by
  unfold pruneEntry at h
  split at h
  · cases h
  · rw [← Option.some.inj h]

theorem lookup_of_mem (hnodup : (d.map Prod.fst).Nodup) (h : (name, e) ∈ d) :
    d.lookup name = some e := by
  induction d with
  | nil => cases h
  | cons p d ih =>
    obtain ⟨first, e'⟩ := p
    rw [List.map_cons, List.nodup_cons] at hnodup
    rcases List.mem_cons.mp h with heq | hmem
    · obtain ⟨rfl, rfl⟩ := Prod.mk.inj heq
      simp
    · have hne : name ≠ first := by
        intro heq
        exact hnodup.1 (List.mem_map.mpr ⟨_, hmem, heq⟩)
      rw [List.lookup_cons, beq_false_of_ne hne]
      exact ih hnodup.2 hmem

/-- A name that is not in a directory is not in what is left of it. -/
theorem lookup_prune_of_not_mem (h : name ∉ d.map Prod.fst) :
    (d.prune gone l).lookup name = none := by
  rw [List.lookup_eq_none_iff]
  intro p hp
  rw [prune_eq_filterMap] at hp
  obtain ⟨q, hq, hpq⟩ := List.mem_filterMap.mp hp
  rw [bne_iff_ne, fst_of_pruneEntry hpq]
  rintro rfl
  exact h (List.mem_map_of_mem hq)

theorem lookup_prune (hnodup : (d.map Prod.fst).Nodup) :
    (d.prune gone l).lookup name =
      (d.lookup name).bind fun e =>
        if e.isGone gone (l ++ [name]) then none else some (e.prune gone (l ++ [name])) := by
  induction d with
  | nil => rw [prune]; rfl
  | cons p d ih =>
    obtain ⟨first, e⟩ := p
    rw [List.map_cons, List.nodup_cons] at hnodup
    rw [prune]
    by_cases hname : name = first
    · subst hname
      split
      · rename_i hgone
        simp [lookup_prune_of_not_mem hnodup.1, hgone]
      · rename_i hgone
        simp [hgone]
    · have hne : (name == first) = false := beq_false_of_ne hname
      split <;> simp [List.lookup_cons, hne, ih hnodup.2]

/-! ### Order -/

theorem pairwise_sorted (d : Directory) :
    d.sorted.Pairwise fun p q => (!decide (q.1 < p.1)) = true := by
  apply List.pairwise_mergeSort
  · intro p q r hpq hqr
    simp only [Bool.not_eq_true', decide_eq_false_iff_not] at hpq hqr ⊢
    intro hrp
    by_cases hrq : r.1 = q.1
    · exact hpq (hrq ▸ hrp)
    · by_cases hlt : q.1 < r.1
      · exact hpq (StrictOrder.trans hlt hrp)
      · exact hrq (StrictOrder.connected hqr hlt)
  · intro p q
    by_cases hqp : q.1 < p.1
    · have hpq : ¬p.1 < q.1 := fun hpq => StrictOrder.irrefl _ (StrictOrder.trans hpq hqp)
      simp [hpq]
    · simp [hqp]

theorem mem_sorted {p : ByteString × FileEntry} : p ∈ d.sorted ↔ p ∈ d :=
  (List.mergeSort_perm d _).mem_iff

theorem sorted_prune (hnodup : (d.map Prod.fst).Nodup) :
    (d.prune gone l).sorted = d.sorted.prune gone l := by
  have hperm : (d.prune gone l).sorted.Perm (d.sorted.prune gone l) := by
    rw [prune_eq_filterMap d.sorted, prune_eq_filterMap d]
    exact (List.mergeSort_perm _ _).trans ((List.mergeSort_perm d _).filterMap _).symm
  refine hperm.eq_of_pairwise ?_ (pairwise_sorted _) ?_
  · -- Neither of two names comes first only if they are the same, and then so are the entries.
    intro p q hp hq hpq hqp
    have hp' : p ∈ d.prune gone l := mem_sorted.mp hp
    have hq' : q ∈ d.prune gone l := mem_sorted.mp (hperm.mem_iff.mpr hq)
    simp only [Bool.not_eq_true', decide_eq_false_iff_not] at hpq hqp
    have hname : p.1 = q.1 := StrictOrder.connected hqp hpq
    rw [prune_eq_filterMap] at hp' hq'
    obtain ⟨p₀, hp₀, hpp⟩ := List.mem_filterMap.mp hp'
    obtain ⟨q₀, hq₀, hqq⟩ := List.mem_filterMap.mp hq'
    rw [fst_of_pruneEntry hpp, fst_of_pruneEntry hqq] at hname
    have hp₁ := lookup_of_mem hnodup (Prod.eta p₀ ▸ hp₀ : (p₀.1, p₀.2) ∈ d)
    have hq₁ := lookup_of_mem hnodup (Prod.eta q₀ ▸ hq₀ : (q₀.1, q₀.2) ∈ d)
    have heq : p₀ = q₀ := by
      rw [hname, hq₁] at hp₁
      exact Prod.ext hname (Option.some.inj hp₁).symm
    rw [heq, hqq] at hpp
    exact (Option.some.inj hpp).symm
  · rw [prune_eq_filterMap]
    refine (pairwise_sorted d).filterMap _ fun p q hpq p' hp' q' hq' => ?_
    rwa [fst_of_pruneEntry hp', fst_of_pruneEntry hq']

end Directory

/-! ### Places -/

namespace FileTree

variable {gone : Location → Nat → Bool} {t t' : FileTree}

/-- A place after files have been taken away. -/
def prunePlace (gone : Location → Nat → Bool) : Place → Place
  | [] => []
  | (name, d) :: place =>
    (name, d.prune gone (location ((name, d) :: place))) :: prunePlace gone place

/-- A tree is what is left of another one when files are taken away. The contents of files do not
    matter here. -/
structure Pruned (gone : Location → Nat → Bool) (t t' : FileTree) : Prop where
  wellFormed : (FileEntry.directory t.root).WellFormed
  root : t'.root = t.root.prune gone []
  current : t'.current = t.current

@[simp] theorem location_prunePlace (place : Place) :
    location (prunePlace gone place) = location place := by
  unfold location
  induction place with
  | nil => rfl
  | cons p place ih => simpa [prunePlace] using ih

theorem prunePlace_drop (place : Place) :
    prunePlace gone (place.drop 1) = (prunePlace gone place).drop 1 := by
  cases place <;> rfl

theorem prunePlace_of_link (target : Path) (place : Place) :
    prunePlace gone (if target.isAbsolute then [] else place) =
      if target.isAbsolute then [] else prunePlace gone place := by
  split <;> rfl

section Pruned

variable (h : Pruned gone t t')
include h

/-- What stands in the tree is well-formed. -/
theorem Pruned.wellFormed_of_stands (hplace : Stands t place) :
    (FileEntry.directory (t.directoryAt place)).WellFormed := by
  induction hplace with
  | root => exact h.wellFormed
  | enter _ hlookup ih =>
    cases ih with
    | directory _ _ below => exact below _ (Directory.mem_of_lookup hlookup)

theorem Pruned.wellFormed_of_holds (hholds : t.Holds l e) : e.WellFormed := by
  cases hholds with
  | root => exact h.wellFormed
  | entry hplace hlookup =>
    cases h.wellFormed_of_stands hplace with
    | directory _ _ below => exact below _ (Directory.mem_of_lookup hlookup)

theorem Pruned.directoryAt_eq (place : Place) :
    t'.directoryAt (prunePlace gone place) =
      (t.directoryAt place).prune gone (location place) := by
  cases place with
  | nil => exact h.root
  | cons p place => rfl

theorem Pruned.lookup_eq (hplace : Stands t place) (name : ByteString) :
    (t'.directoryAt (prunePlace gone place)).lookup name =
      ((t.directoryAt place).lookup name).bind fun e =>
        if e.isGone gone (location place ++ [name]) then none
        else some (e.prune gone (location place ++ [name])) := by
  rw [h.directoryAt_eq]
  cases h.wellFormed_of_stands hplace with
  | directory nodup _ _ => exact Directory.lookup_prune nodup

end Pruned

/-! ### Going along a path -/

/-- What a name means after files have been taken away, where it would be the name of a file. -/
def Step.prune (gone : Location → Nat → Bool) (l : Location) : Step → Step
  | .enter place => .enter (prunePlace gone place)
  | .file number => if gone l number then .absent else .file number
  | .link target => .link target
  | .absent => .absent
  | .tooLong => .tooLong

/-- Where a path leads after files have been taken away. -/
def Target.prune (gone : Location → Nat → Bool) : Target → Target
  | .found l e => if e.isGone gone l then .free l else .found l (e.prune gone l)
  | .free l => .free l

section Pruned

variable (h : Pruned gone t t')
include h

theorem Pruned.step_eq (hplace : Stands t place) (name : ByteString) :
    t'.step (prunePlace gone place) name =
      (t.step place name).prune gone (location place ++ [name]) := by
  unfold step
  by_cases hhere : name = Path.here
  · rw [if_pos hhere, if_pos hhere]
    rfl
  · by_cases habove : name = Path.above
    · rw [if_neg hhere, if_neg hhere, if_pos habove, if_pos habove, Step.prune, prunePlace_drop]
    · by_cases hlong : Path.nameLimit < name.length
      · rw [if_neg hhere, if_neg hhere, if_neg habove, if_neg habove, if_pos hlong, if_pos hlong]
        rfl
      · rw [if_neg hhere, if_neg hhere, if_neg habove, if_neg habove, if_neg hlong, if_neg hlong,
          h.lookup_eq hplace]
        cases (t.directoryAt place).lookup name with
        | none => rfl
        | some e =>
          cases e with
          | file number =>
            by_cases hgone : gone (location place ++ [name]) number
            · simp [FileEntry.isGone, hgone, Step.prune]
            · simp [FileEntry.isGone, hgone, Step.prune, FileEntry.prune]
          | directory d =>
            simp [FileEntry.isGone, Step.prune, FileEntry.prune, prunePlace, location_cons]
          | link target => simp [FileEntry.isGone, Step.prune, FileEntry.prune]

/-- A walk ends as before, unless it has to go through a file. -/
theorem Pruned.walk_eq {wantDirectory : Bool} {fuel links : Nat} {names : List ByteString}
    (hplace : Stands t place)
    (hfile : walk t follow false wantDirectory fuel links place names ≠ .error .notDirectory) :
    walk t' follow false wantDirectory fuel links (prunePlace gone place) names =
      (walk t follow false wantDirectory fuel links place names).map (Target.prune gone) := by
  induction fuel generalizing wantDirectory links place names with
  | zero =>
    cases names with
    | nil =>
      rw [walk_nil, walk_nil, location_prunePlace, h.directoryAt_eq]
      rfl
    | cons name names => rfl
  | succ fuel ih =>
    cases names with
    | nil =>
      rw [walk_nil, walk_nil, location_prunePlace, h.directoryAt_eq]
      rfl
    | cons name names =>
      rw [walk_cons] at hfile
      rw [walk_cons, walk_cons, h.step_eq hplace, location_prunePlace]
      cases hstep : t.step place name with
      | enter place' =>
        rw [hstep] at hfile
        exact ih (hplace.of_step hstep) hfile
      | file number =>
        rw [hstep] at hfile
        dsimp only at hfile
        split at hfile
        · -- The file is the end of the path.
          rename_i hend
          rw [Bool.and_eq_true] at hend
          by_cases hgone : gone (location place ++ [name]) number
          · simp [Step.prune, hgone, hend.1, hend.2, Except.map, Target.prune, FileEntry.isGone]
          · simp [Step.prune, hgone, hend.1, hend.2, Except.map, Target.prune, FileEntry.isGone,
              FileEntry.prune]
        · exact absurd rfl hfile
      | absent =>
        dsimp only [Step.prune]
        split <;> rfl
      | tooLong => rfl
      | link target =>
        rw [hstep] at hfile
        dsimp only [Step.prune] at hfile ⊢
        split
        · simp [Except.map, Target.prune, FileEntry.isGone, FileEntry.prune]
        · rename_i hgo
          rw [if_neg hgo] at hfile
          cases links with
          | zero => rfl
          | succ links =>
            dsimp only
            rw [← prunePlace_of_link]
            exact ih (hplace.of_link target) hfile

theorem Pruned.enter_eq (hplace : Stands t place) (l : Location) :
    t'.enter? (prunePlace gone place) l = (t.enter? place l).map (prunePlace gone) := by
  induction l generalizing place with
  | nil => rfl
  | cons name l ih =>
    rw [enter?, enter?, h.lookup_eq hplace]
    cases hlookup : (t.directoryAt place).lookup name with
    | none => rfl
    | some e =>
      cases e with
      | directory d =>
        have hcons := ih (.enter hplace hlookup)
        simpa [FileEntry.isGone, FileEntry.prune, prunePlace, location_cons] using hcons
      | file number =>
        by_cases hgone : gone (location place ++ [name]) number
        · simp [FileEntry.isGone, hgone]
        · simp [FileEntry.isGone, FileEntry.prune, hgone]
      | link target => rfl

theorem Pruned.start_eq (path : Path) : t'.start? path = (t.start? path).map (prunePlace gone) := by
  unfold start?
  rw [h.current]
  split
  · rfl
  · exact h.enter_eq .root t.current

/-- A path leads to what is left of where it has led before, unless it goes through a file. -/
theorem Pruned.target_eq (hfile : t.target follow false path ≠ .error .notDirectory) :
    t'.target follow false path = (t.target follow false path).map (Target.prune gone) := by
  cases hfault : path.fault? with
  | some reason => simp [target, hfault, Except.map]
  | none =>
    have hstart' := h.start_eq path
    cases hstart : t.start? path with
    | none =>
      rw [hstart] at hstart'
      unfold start? at hstart hstart'
      simp [target, hfault, hstart, hstart', Except.map]
    | some start =>
      rw [hstart] at hstart'
      rw [target_eq_walk hfault hstart] at hfile ⊢
      rw [target_eq_walk hfault hstart']
      exact h.walk_eq (stands_of_start hstart) hfile

theorem Pruned.target_of_found (hfound : t.target follow false path = .ok (.found l e))
    (hgone : e.isGone gone l = false) :
    t'.target follow false path = .ok (.found l (e.prune gone l)) := by
  have hfile : t.target follow false path ≠ .error .notDirectory := by
    rw [hfound]
    exact fun heq => nomatch heq
  rw [h.target_eq hfile, hfound]
  simp [Except.map, Target.prune, hgone]

theorem Pruned.leads (hleads : t.Leads path l e) (hgone : e.isGone gone l = false) :
    t'.Leads path l (e.prune gone l) :=
  h.target_of_found hleads hgone

end Pruned

end FileTree

end ClassAudit
