import ClassAudit.Proofs.Files.Place

/-! # Regular trees

    A regular tree holds files and directories only, under names that a path can have. There a path
    leads where its names lead one after the other, and so does the clean path, since two dots take
    back the name in front of them.

    What stands in a directory of a regular tree is found by its path, unless the path is too long.
    That can be: no name is longer than a name may be, but directories can lie inside each other
    without end, and a path cannot.
-/

namespace ClassAudit

/-- What can be the name of a file: a path can have it. -/
structure Path.IsFileName (name : ByteString) : Prop extends Path.IsEntryName name where
  not_mem_zero : 0 ∉ name.bytes
  length_le : name.length ≤ Path.nameLimit

instance (name : ByteString) : Decidable (Path.IsFileName name) :=
  decidable_of_iff (Path.IsEntryName name ∧ 0 ∉ name.bytes ∧ name.length ≤ Path.nameLimit)
    ⟨fun h => ⟨h.1, h.2.1, h.2.2⟩, fun h => ⟨h.toIsEntryName, h.not_mem_zero, h.length_le⟩⟩

mutual

/-- Whether an entry is a file, or a directory with regular entries. -/
def FileEntry.isRegular : FileEntry → Bool
  | .file _ => true
  | .directory entries => Directory.isRegular entries
  | .link _ => false

/-- Whether a directory has regular entries under different names. -/
def Directory.isRegular : Directory → Bool
  | [] => true
  | (name, e) :: entries =>
    decide (Path.IsFileName name ∧ name ∉ entries.map Prod.fst) && e.isRegular &&
      Directory.isRegular entries

end

namespace Directory

variable {d : Directory}

theorem nodup_of_isRegular (h : d.isRegular = true) : (d.map Prod.fst).Nodup := by
  induction d with
  | nil => exact List.nodup_nil
  | cons p d ih =>
    rw [isRegular, Bool.and_eq_true, Bool.and_eq_true, decide_eq_true_eq] at h
    exact List.nodup_cons.mpr ⟨h.1.1.2, ih h.2⟩

theorem isRegular_of_mem {name : ByteString} {e : FileEntry} (h : d.isRegular = true)
    (hmem : (name, e) ∈ d) : Path.IsFileName name ∧ e.isRegular = true := by
  induction d with
  | nil => cases hmem
  | cons p d ih =>
    rw [isRegular, Bool.and_eq_true, Bool.and_eq_true, decide_eq_true_eq] at h
    rcases List.mem_cons.mp hmem with heq | hmem
    · obtain ⟨rfl, rfl⟩ := Prod.mk.inj heq
      exact ⟨h.1.1.1, h.1.2⟩
    · exact ih h.2 hmem

end Directory

namespace FileTree

variable {t : FileTree}

theorem Stands.isRegular {place : Place} (h : Stands t place) (hregular : t.root.isRegular = true) :
    (t.directoryAt place).isRegular = true := by
  induction h with
  | root => exact hregular
  | enter _ hlookup ih =>
    have hentry := (Directory.isRegular_of_mem ih (Directory.mem_of_lookup hlookup)).2
    rwa [FileEntry.isRegular] at hentry

theorem Stands.step_ne_link {place : Place} (h : Stands t place)
    (hregular : t.root.isRegular = true) {name : ByteString} {target : Path} :
    t.step place name ≠ .link target := by
  intro hstep
  have hmem := Directory.mem_of_lookup (lookup_of_step_link hstep)
  have hentry := (Directory.isRegular_of_mem (h.isRegular hregular) hmem).2
  rw [FileEntry.isRegular] at hentry
  cases hentry

/-! ### From place to place -/

/-- Names that lead from one place to another, through directories only. -/
inductive Enters (t : FileTree) : Place → List ByteString → Place → Prop
  | nil {place : Place} : Enters t place [] place
  | cons {place next last : Place} {name : ByteString} {names : List ByteString}
    (hstep : t.step place name = .enter next) (h : Enters t next names last) :
    Enters t place (name :: names) last

namespace Enters

variable {place next last : Place} {name : ByteString} {names : List ByteString}

theorem concat (h : Enters t place names next) (hstep : t.step next name = .enter last) :
    Enters t place (names ++ [name]) last := by
  induction h with
  | nil => exact .cons hstep .nil
  | cons hfirst _ ih => exact .cons hfirst (ih hstep)

theorem exists_of_concat (h : Enters t place (names ++ [name]) last) :
    ∃ next, Enters t place names next ∧ t.step next name = .enter last := by
  induction names generalizing place with
  | nil =>
    cases h with
    | cons hstep h =>
      cases h with
      | nil => exact ⟨place, .nil, hstep⟩
  | cons first names ih =>
    cases h with
    | cons hfirst h =>
      obtain ⟨next, hnames, hstep⟩ := ih h
      exact ⟨next, .cons hfirst hnames, hstep⟩

/-- A walk gets through such names, whatever comes behind them. -/
theorem walk_eq (h : Enters t place names last) (follow wantDirectory : Bool) (fuel links : Nat)
    (rest : List ByteString) :
    walk t follow false wantDirectory (fuel + names.length) links place (names ++ rest) =
      walk t follow false wantDirectory fuel links last rest := by
  induction h with
  | nil => rfl
  | cons hstep _ ih =>
    rw [List.cons_append, List.length_cons, ← Nat.add_assoc, walk_cons, hstep]
    exact ih

end Enters

theorem exists_place_of_step {place next : Place} {name : ByteString} (hhere : name ≠ Path.here)
    (habove : name ≠ Path.above) (h : t.step place name = .enter next) :
    ∃ d, next = (name, d) :: place := by
  unfold step at h
  rw [if_neg hhere, if_neg habove] at h
  split at h
  · cases h
  · split at h
    · cases h
    · exact ⟨_, (Step.enter.inj h).symm⟩
    · cases h
    · cases h

/-- The clean names lead to the same place. What is clean so far leads to the place at which the
    rest starts. -/
theorem Enters.clean {absolute : Bool} {start place last : Place} {names done : List ByteString}
    (hroot : absolute = true → start = []) (hhere : Path.here ∉ done)
    (hdone : Enters t start done.reverse place) (h : Enters t place names last) :
    Enters t start (Path.cleanNames absolute names done).reverse last := by
  induction h generalizing done with
  | nil => exact hdone
  | @cons place next last name names hstep _ ih =>
    unfold Path.cleanNames
    by_cases hdot : name = Path.here
    · rw [step, if_pos hdot] at hstep
      rw [if_pos hdot]
      obtain rfl := Step.enter.inj hstep
      exact ih hhere hdone
    · rw [if_neg hdot]
      by_cases hup : name = Path.above
      · rw [if_pos hup]
        have hnext : place.drop 1 = next := by
          rw [step, if_neg hdot, if_pos hup] at hstep
          exact Step.enter.inj hstep
        cases done with
        | nil =>
          cases hdone with
          | nil =>
            cases absolute with
            | true =>
              obtain rfl := hroot rfl
              obtain rfl : [] = next := hnext
              exact ih hhere .nil
            | false =>
              subst hup
              exact ih (by decide) (.cons hstep .nil)
        | cons before done =>
          dsimp only
          split
          · -- Two dots behind two dots lead further up.
            subst hup
            refine ih ?_ ?_
            · exact fun hmem => hhere ((List.mem_cons.mp hmem).resolve_left (by decide))
            · rw [List.reverse_cons]
              exact hdone.concat hstep
          · -- Two dots lead back to where the last name has led from.
            rename_i hbefore
            obtain ⟨hne, hhere'⟩ := List.ne_and_not_mem_of_not_mem_cons hhere
            rw [List.reverse_cons] at hdone
            obtain ⟨back, hback, hlast⟩ := hdone.exists_of_concat
            obtain ⟨d, rfl⟩ := exists_place_of_step (Ne.symm hne) hbefore hlast
            rw [← hnext] at ih
            exact ih hhere' hback
      · rw [if_neg hup]
        refine ih ?_ ?_
        · exact fun hmem => hhere ((List.mem_cons.mp hmem).resolve_left (Ne.symm hdot))
        · rw [List.reverse_cons]
          exact hdone.concat hstep

/-! ### Paths of a regular tree -/

theorem length_names_le_stepLimit (path : Path) : path.names.length ≤ stepLimit path :=
  Nat.le_trans path.length_names_le (Nat.add_le_add_left (by decide) _)

/-- A walk that ends in a directory has gone through directories only. -/
theorem Arrives.exists_enters {write wantDirectory : Bool} {fuel links : Nat} {place : Place}
    {names : List ByteString} {l : Location} {d : Directory} {goal : Target}
    (h : Arrives t true write wantDirectory fuel links place names goal) (hplace : Stands t place)
    (hregular : t.root.isRegular = true) (hgoal : goal = .found l (.directory d)) :
    ∃ last, Enters t place names last ∧ Stands t last ∧ t.directoryAt last = d := by
  induction h with
  | @here _ _ _ place =>
    cases hgoal
    exact ⟨place, .nil, hplace, rfl⟩
  | enter hstep _ ih =>
    obtain ⟨last, hlast, hstands, hd⟩ := ih (hplace.of_step hstep) hgoal
    exact ⟨last, .cons hstep hlast, hstands, hd⟩
  | file _ => cases hgoal
  | link hfollow _ => cases hfollow
  | free _ _ => cases hgoal
  | through _ hstep _ _ => exact absurd hstep (hplace.step_ne_link hregular)

/-- The clean names of a path lead to a directory at a place. The path itself need not, as it may be
    too long. -/
structure Spells (t : FileTree) (path : Path) (place : Place) : Prop where
  not_isEmpty : path.isEmpty = false
  not_mem_zero : ∀ name ∈ path.settled, 0 ∉ name.bytes
  enters : ∃ start, t.start? path = some start ∧ Enters t start path.settled place

/-- A path that leads to a directory spells its place, whether or not links are followed. -/
theorem Leads.exists_spells {path : Path} {l : Location} {d : Directory}
    (h : t.Leads path l (.directory d)) (hregular : t.root.isRegular = true) :
    ∃ place, Stands t place ∧ t.directoryAt place = d ∧ Spells t path place ∧
      ∃ l', t.target false false path = .ok (.found l' (.directory d)) := by
  obtain ⟨start, hfault, hstart, harrives⟩ := exists_arrives h
  have hstands := stands_of_start hstart
  obtain ⟨place, hnames, hplace, rfl⟩ := harrives.exists_enters hstands hregular rfl
  have hroot : path.isAbsolute = true → start = [] := by
    intro habs
    rw [start?, if_pos habs] at hstart
    exact (Option.some.inj hstart).symm
  have hzero : 0 ∉ path.bytes := by
    intro hmem
    rw [Path.fault?, List.contains_iff_mem.mpr hmem] at hfault
    split at hfault
    · cases hfault
    · cases hfault
  refine ⟨place, hplace, rfl, ⟨?_, ?_, start, hstart, ?_⟩, location place, ?_⟩
  · by_contra hempty
    rw [Path.fault?, if_pos (by simpa using hempty)] at hfault
    cases hfault
  · intro name hname hmem
    rcases Path.mem_cleanNames (List.mem_reverse.mp hname) with hname | hname | rfl
    · exact hzero (Path.subset_of_mem_names hname hmem)
    · cases hname
    · revert hmem
      decide
  · exact .clean hroot List.not_mem_nil .nil hnames
  · have hwalk := hnames.walk_eq false path.endsWithSlash (stepLimit path - path.names.length)
      linkLimit []
    rw [Nat.sub_add_cancel (length_names_le_stepLimit path), List.append_nil, walk_nil] at hwalk
    rw [target_eq_walk hfault hstart, hwalk]

section Entry

variable {path : Path} {place : Place} (h : Spells t path place) {name : ByteString}
  (hname : Path.IsFileName name)
include h hname

theorem Spells.not_mem_zero_entry : ∀ n ∈ path.settled ++ [name], 0 ∉ n.bytes := by
  intro n hn
  rcases List.mem_append.mp hn with hn | hn
  · exact h.not_mem_zero n hn
  · rw [List.mem_singleton.mp hn]
    exact hname.not_mem_zero

theorem Spells.start_entry : t.start? (Path.join [path, name]) = t.start? path := by
  rw [start?, start?, Path.isAbsolute_join_entry h.not_isEmpty hname.toIsEntryName]

theorem Spells.enter {d : Directory}
    (hlookup : (t.directoryAt place).lookup name = some (.directory d)) :
    Spells t (Path.join [path, name]) ((name, d) :: place) := by
  obtain ⟨start, hstart, henters⟩ := h.enters
  have hsettled := Path.settled_join_entry h.not_isEmpty hname.toIsEntryName
  have hstep : t.step place name = .enter ((name, d) :: place) := by
    rw [step_of_lookup hname.toIsEntryName hname.length_le, hlookup]
  refine ⟨Path.isEmpty_join_entry h.not_isEmpty hname.toIsEntryName, ?_, start, ?_, ?_⟩
  · rw [hsettled]
    exact h.not_mem_zero_entry hname
  · rw [h.start_entry hname]
    exact hstart
  · rw [hsettled]
    exact henters.concat hstep

theorem Spells.fault_entry : (Path.join [path, name]).fault? =
    if Path.pathLimit < (Path.join [path, name]).length then some .nameTooLong else none := by
  have hzero : 0 ∉ (Path.join [path, name]).bytes := by
    rw [Path.join_entry h.not_isEmpty hname.toIsEntryName]
    exact Path.not_mem_ofNames (by decide) (h.not_mem_zero_entry hname)
  rw [Path.fault?, Path.isEmpty_join_entry h.not_isEmpty hname.toIsEntryName]
  simp [hzero]

theorem Spells.target_entry {e : FileEntry}
    (hlookup : (t.directoryAt place).lookup name = some e) (hlink : ∀ target, e ≠ .link target) :
    t.target true false (Path.join [path, name]) =
      if Path.pathLimit < (Path.join [path, name]).length then .error .nameTooLong
      else .ok (.found (location place ++ [name]) e) := by
  have hfault := h.fault_entry hname
  split
  · rename_i hlong
    rw [if_pos hlong] at hfault
    rw [target, hfault]
  · rename_i hlong
    rw [if_neg hlong] at hfault
    obtain ⟨start, hstart, henters⟩ := h.enters
    rw [← h.start_entry hname] at hstart
    have hnames := Path.names_join_entry h.not_isEmpty hname.toIsEntryName
    obtain ⟨fuel, hfuel⟩ : ∃ fuel, stepLimit (Path.join [path, name]) =
        fuel + 1 + path.settled.length := by
      have hsteps := length_names_le_stepLimit (Path.join [path, name])
      rw [hnames, List.length_append, List.length_singleton] at hsteps
      exact ⟨stepLimit (Path.join [path, name]) - path.settled.length - 1, by omega⟩
    have hwalk := henters.walk_eq true (Path.join [path, name]).endsWithSlash (fuel + 1) linkLimit
      [name]
    rw [target_eq_walk hfault hstart, hnames, hfuel, hwalk, walk_cons,
      step_of_lookup hname.toIsEntryName hname.length_le, hlookup,
      Path.endsWithSlash_join_entry h.not_isEmpty hname.toIsEntryName]
    cases e with
    | link target => exact absurd rfl (hlink target)
    | file number => rfl
    | directory d =>
      dsimp only
      rw [walk_nil, location_cons]
      rfl

end Entry

end FileTree

end ClassAudit
