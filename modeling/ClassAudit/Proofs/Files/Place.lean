import ClassAudit.Files.Tree
import ClassAudit.Proofs.Files.Path

/-! # Where paths lead

    A walk along a path takes one name after the other, and all that is said here about walks comes
    from what one name means at a place. How a walk arrives is a relation beside the walk, and what
    holds of walks is shown by induction over it. What is found at the end stands in the tree. Going
    along a path and then along a second one is going along both at once, so that the path of an
    entry, which is the clean path of its directory and the name of the entry, leads to what the
    directory has under that name. Where there are no links, the names alone say where a path leads.
-/

namespace ClassAudit

variable {d : Directory} {name : ByteString} {e : FileEntry} {path target : Path} {l : Location}
  {number fuel links : Nat} {start place place' : Place} {follow write wantDirectory : Bool}
  {names : List ByteString}

theorem Directory.mem_of_lookup (h : d.lookup name = some e) : (name, e) ∈ d := by
  obtain ⟨before, after, rfl, -⟩ := List.lookup_eq_some_iff.mp h
  simp

namespace FileTree

variable {t : FileTree} {goal : Target}

/-- Where a path leads, if all links are followed. -/
def Leads (t : FileTree) (path : Path) (l : Location) (e : FileEntry) : Prop :=
  t.target true false path = .ok (.found l e)

theorem Leads.unique {l' : Location} {e' : FileEntry} (h : t.Leads path l e)
    (h' : t.Leads path l' e') : l = l' ∧ e = e' := by
  exact Target.found.inj (Except.ok.inj (h.symm.trans h'))

/-- Whether a path leads to a directory at a place. -/
def leadsToDirectory (t : FileTree) (path : Path) (l : Location) : Bool :=
  match t.target true false path with
  | .ok (.found l' (.directory _)) => l' = l
  | _ => false

/-- Whether a path leads to the file with a number at a place. -/
def leadsToFile (t : FileTree) (path : Path) (l : Location) (number : Nat) : Bool :=
  match t.target true false path with
  | .ok (.found l' (.file number')) => l' = l ∧ number' = number
  | _ => false

theorem exists_leads_directory (h : t.leadsToDirectory path l) :
    ∃ d, t.Leads path l (.directory d) := by
  unfold leadsToDirectory at h
  split at h
  · rename_i l' d htarget
    rw [of_decide_eq_true h] at htarget
    exact ⟨d, htarget⟩
  · cases h

theorem leads_file (h : t.leadsToFile path l number) : t.Leads path l (.file number) := by
  unfold leadsToFile at h
  split at h
  · rename_i l' number' htarget
    obtain ⟨rfl, rfl⟩ := of_decide_eq_true h
    exact htarget
  · cases h

/-- The place at which a path starts. -/
def start? (t : FileTree) (path : Path) : Option Place :=
  if path.isAbsolute then some [] else t.enter? [] t.current

theorem target_eq_walk (hfault : path.fault? = none) (hstart : t.start? path = some start)
    (follow write : Bool) :
    t.target follow write path =
      walk t follow write path.endsWithSlash (stepLimit path) linkLimit start path.names := by
  unfold start? at hstart
  rw [target, hfault, hstart]

/-- A path that leads somewhere can be walked along. -/
theorem exists_start_of_target (h : t.target follow write path = .ok goal) :
    ∃ start, path.fault? = none ∧ t.start? path = some start := by
  unfold target at h
  split at h
  · cases h
  · cases h
  · rename_i start hfault hstart
    exact ⟨start, hfault, hstart⟩

theorem Leads.not_isEmpty (h : t.Leads path l e) : path.isEmpty = false := by
  obtain ⟨_, hfault, -⟩ := exists_start_of_target h
  by_contra hne
  rw [Bool.not_eq_false] at hne
  simp [Path.fault?, hne] at hfault

/-! ### One name -/

/-- What a name means at a place. -/
inductive Step
  /-- It leads to a place. -/
  | enter (place : Place)
  | file (number : Nat)
  | link (target : Path)
  /-- There is no such name. -/
  | absent
  /-- There can be no such name. -/
  | tooLong

/-- What a name means at a place of a tree. -/
def step (t : FileTree) (place : Place) (name : ByteString) : Step :=
  if name = Path.here then .enter place
  else if name = Path.above then .enter (place.drop 1)
  else if Path.nameLimit < name.length then .tooLong
  else
    match (t.directoryAt place).lookup name with
    | none => .absent
    | some (.directory d) => .enter ((name, d) :: place)
    | some (.file number) => .file number
    | some (.link target) => .link target

/-- A walk takes one name after the other. -/
theorem walk_cons (follow wantDirectory : Bool) (fuel links : Nat) (place : Place)
    (name : ByteString) (rest : List ByteString) :
    walk t follow false wantDirectory (fuel + 1) links place (name :: rest) =
      match t.step place name with
      | .enter place' => walk t follow false wantDirectory fuel links place' rest
      | .file number =>
        if rest.isEmpty && !wantDirectory then
          .ok (.found (location place ++ [name]) (.file number))
        else .error .notDirectory
      | .link target =>
        if rest.isEmpty && !follow && !wantDirectory then
          .ok (.found (location place ++ [name]) (.link target))
        else
          match links with
          | 0 => .error .tooManyLinks
          | links + 1 =>
            walk t follow false (wantDirectory || (rest.isEmpty && target.endsWithSlash)) fuel
              links (if target.isAbsolute then [] else place) (target.names ++ rest)
      | .absent =>
        if rest.isEmpty then .ok (.free (location place ++ [name])) else .error .missing
      | .tooLong => .error .nameTooLong := by
  rw [walk, step]
  simp only [Bool.false_and, Bool.false_eq_true, ↓reduceIte]
  by_cases hhere : name = Path.here
  · simp only [hhere, ↓reduceIte]
  · by_cases habove : name = Path.above
    · rw [if_neg hhere, if_neg hhere, if_pos habove, if_pos habove]
    · by_cases hlong : Path.nameLimit < name.length
      · simp only [hhere, habove, hlong, ↓reduceIte]
      · simp only [hhere, habove, hlong, ↓reduceIte]
        cases (t.directoryAt place).lookup name with
        | none => rfl
        | some e => cases e <;> rfl

theorem walk_nil (follow wantDirectory : Bool) (fuel links : Nat) (place : Place) :
    walk t follow false wantDirectory fuel links place [] =
      .ok (.found (location place) (.directory (t.directoryAt place))) := by
  cases fuel <;> rfl

/-- How a walk arrives at a goal: it enters places and follows links, up to the last name. -/
inductive Arrives (t : FileTree) (follow write : Bool) :
    Bool → Nat → Nat → Place → List ByteString → Target → Prop
  | here {wantDirectory : Bool} {fuel links : Nat} {place : Place} :
    Arrives t follow write wantDirectory fuel links place []
      (.found (location place) (.directory (t.directoryAt place)))
  | enter {wantDirectory : Bool} {fuel links : Nat} {place next : Place} {name : ByteString}
    {rest : List ByteString} {goal : Target} (hstep : t.step place name = .enter next)
    (h : Arrives t follow write wantDirectory fuel links next rest goal) :
    Arrives t follow write wantDirectory (fuel + 1) links place (name :: rest) goal
  | file {fuel links number : Nat} {place : Place} {name : ByteString}
    (hstep : t.step place name = .file number) :
    Arrives t follow write false (fuel + 1) links place [name]
      (.found (location place ++ [name]) (.file number))
  | link {fuel links : Nat} {place : Place} {name : ByteString} {target : Path}
    (hfollow : follow = false) (hstep : t.step place name = .link target) :
    Arrives t follow write false (fuel + 1) links place [name]
      (.found (location place ++ [name]) (.link target))
  | free {wantDirectory : Bool} {fuel links : Nat} {place : Place} {name : ByteString}
    (hend : write = true → wantDirectory = false) (hstep : t.step place name = .absent) :
    Arrives t follow write wantDirectory (fuel + 1) links place [name]
      (.free (location place ++ [name]))
  | through {wantDirectory : Bool} {fuel links : Nat} {place : Place} {name : ByteString}
    {rest : List ByteString} {target : Path} {goal : Target}
    (hend : (rest.isEmpty && !follow && !wantDirectory) = false)
    (hstep : t.step place name = .link target)
    (h : Arrives t follow write (wantDirectory || (rest.isEmpty && target.endsWithSlash)) fuel links
      (if target.isAbsolute then [] else place) (target.names ++ rest) goal) :
    Arrives t follow write wantDirectory (fuel + 1) (links + 1) place (name :: rest) goal

theorem arrives_of_walk (h : walk t follow write wantDirectory fuel links place names = .ok goal) :
    Arrives t follow write wantDirectory fuel links place names goal := by
  induction fuel generalizing wantDirectory links place names with
  | zero =>
    cases names with
    | nil =>
      obtain rfl := Except.ok.inj h
      exact .here
    | cons name rest => cases h
  | succ fuel ih =>
    cases names with
    | nil =>
      obtain rfl := Except.ok.inj h
      exact .here
    | cons name rest =>
      rw [walk] at h
      have hstep := step.eq_1 t place name
      by_cases hhere : name = Path.here
      · rw [if_pos hhere] at h hstep
        exact .enter hstep (ih h)
      rw [if_neg hhere] at h hstep
      by_cases habove : name = Path.above
      · rw [if_pos habove] at h hstep
        exact .enter hstep (ih h)
      rw [if_neg habove] at h hstep
      -- Where a file is written, a name for a directory is refused before it is looked up.
      by_cases hwrite : write && wantDirectory && rest.isEmpty
      · rw [if_pos hwrite] at h
        cases h
      rw [if_neg hwrite] at h
      by_cases hlong : Path.nameLimit < name.length
      · rw [if_pos hlong] at h
        cases h
      rw [if_neg hlong] at h hstep
      cases hlookup : (t.directoryAt place).lookup name with
      | none =>
        rw [hlookup] at h hstep
        dsimp only at h
        split at h
        · rename_i hrest
          obtain rfl := List.isEmpty_iff.mp hrest
          obtain rfl := Except.ok.inj h
          exact .free (by simpa using hwrite) hstep
        · cases h
      | some e =>
        rw [hlookup] at h hstep
        cases e with
        | directory d => exact .enter hstep (ih h)
        | file number =>
          dsimp only at h
          split at h
          · rename_i hend
            simp only [Bool.and_eq_true, List.isEmpty_iff, Bool.not_eq_true'] at hend
            obtain ⟨rfl, rfl⟩ := hend
            obtain rfl := Except.ok.inj h
            exact .file hstep
          · cases h
        | link target =>
          dsimp only at h
          split at h
          · rename_i hend
            simp only [Bool.and_eq_true, List.isEmpty_iff, Bool.not_eq_true'] at hend
            obtain ⟨⟨rfl, hfollow⟩, rfl⟩ := hend
            obtain rfl := Except.ok.inj h
            exact .link hfollow hstep
          · rename_i hend
            cases links with
            | zero => cases h
            | succ links => exact .through (Bool.eq_false_iff.mpr hend) hstep (ih h)

/-- A walk that is not made for writing arrives there too. -/
theorem Arrives.walk_eq (h : Arrives t follow write wantDirectory fuel links place names goal) :
    walk t follow false wantDirectory fuel links place names = .ok goal := by
  induction h with
  | here => exact walk_nil ..
  | enter hstep _ ih => rwa [walk_cons, hstep]
  | file hstep =>
    rw [walk_cons, hstep]
    rfl
  | link hfollow hstep =>
    rw [walk_cons, hstep, hfollow]
    rfl
  | free _ hstep =>
    rw [walk_cons, hstep]
    rfl
  | through hend hstep _ ih =>
    rw [walk_cons, hstep]
    simpa [hend] using ih

/-- Along a path that leads somewhere there is a walk that arrives there. -/
theorem exists_arrives (h : t.target follow write path = .ok goal) :
    ∃ start, path.fault? = none ∧ t.start? path = some start ∧
      Arrives t follow write path.endsWithSlash (stepLimit path) linkLimit start path.names goal := by
  obtain ⟨start, hfault, hstart⟩ := exists_start_of_target h
  rw [target_eq_walk hfault hstart] at h
  exact ⟨start, hfault, hstart, arrives_of_walk h⟩

theorem step_of_lookup (hname : Path.IsEntryName name) (hlong : name.length ≤ Path.nameLimit) :
    t.step place name =
      match (t.directoryAt place).lookup name with
      | none => .absent
      | some (.directory d) => .enter ((name, d) :: place)
      | some (.file number) => .file number
      | some (.link target) => .link target := by
  rw [step, if_neg hname.ne_here, if_neg hname.ne_above, if_neg (Nat.not_lt.mpr hlong)]

/-! ### Places in a tree -/

theorem location_cons (name : ByteString) (d : Directory) (place : Place) :
    location ((name, d) :: place) = location place ++ [name] := by
  simp [location]

/-- A place that is reached from the root by names of directories. -/
inductive Stands (t : FileTree) : Place → Prop
  | root : Stands t []
  | enter {place : Place} {name : ByteString} {d : Directory} (h : Stands t place)
    (hlookup : (t.directoryAt place).lookup name = some (.directory d)) :
    Stands t ((name, d) :: place)

/-- An entry that stands at a place of a tree: the root, or what a directory has under a name. -/
inductive Holds (t : FileTree) : Location → FileEntry → Prop
  | root : Holds t [] (.directory t.root)
  | entry {place : Place} {name : ByteString} {e : FileEntry} (h : Stands t place)
    (hlookup : (t.directoryAt place).lookup name = some e) :
    Holds t (location place ++ [name]) e

theorem Stands.drop (h : Stands t place) : Stands t (place.drop 1) := by
  cases h with
  | root => exact .root
  | enter h _ => exact h

/-- The place at which a link is followed. -/
theorem Stands.of_link (h : Stands t place) (target : Path) :
    Stands t (if target.isAbsolute then [] else place) := by
  split
  · exact .root
  · exact h

theorem Stands.holds (h : Stands t place) :
    Holds t (location place) (.directory (t.directoryAt place)) := by
  cases h with
  | root => exact .root
  | enter h hlookup =>
    rw [location_cons]
    exact .entry h hlookup

theorem Stands.of_step (h : Stands t place) (hstep : t.step place name = .enter place') :
    Stands t place' := by
  unfold step at hstep
  split_ifs at hstep
  · obtain rfl := Step.enter.inj hstep
    exact h
  · obtain rfl := Step.enter.inj hstep
    exact h.drop
  · split at hstep
    · cases hstep
    · rename_i d hlookup
      obtain rfl := Step.enter.inj hstep
      exact .enter h hlookup
    · cases hstep
    · cases hstep

theorem lookup_of_step_file (hstep : t.step place name = .file number) :
    (t.directoryAt place).lookup name = some (.file number) := by
  unfold step at hstep
  split_ifs at hstep
  split at hstep
  · cases hstep
  · cases hstep
  · rename_i hlookup
    rw [hlookup, Step.file.inj hstep]
  · cases hstep

theorem lookup_of_step_link (hstep : t.step place name = .link target) :
    (t.directoryAt place).lookup name = some (.link target) := by
  unfold step at hstep
  split_ifs at hstep
  split at hstep
  · cases hstep
  · cases hstep
  · cases hstep
  · rename_i hlookup
    rw [hlookup, Step.link.inj hstep]

theorem Arrives.holds (h : Arrives t follow write wantDirectory fuel links place names goal)
    (hplace : Stands t place) (hgoal : goal = .found l e) : Holds t l e := by
  induction h with
  | here =>
    cases hgoal
    exact hplace.holds
  | enter hstep _ ih => exact ih (hplace.of_step hstep) hgoal
  | file hstep =>
    cases hgoal
    exact .entry hplace (lookup_of_step_file hstep)
  | link _ hstep =>
    cases hgoal
    exact .entry hplace (lookup_of_step_link hstep)
  | free _ _ => cases hgoal
  | through _ _ _ ih => exact ih (hplace.of_link _) hgoal

theorem Stands.of_enter (hplace : Stands t place) (h : t.enter? place l = some place') :
    Stands t place' := by
  induction l generalizing place with
  | nil =>
    obtain rfl := Option.some.inj h
    exact hplace
  | cons name l ih =>
    rw [enter?] at h
    split at h
    · rename_i d hlookup
      exact ih (.enter hplace hlookup) h
    · cases h

theorem stands_of_start (h : t.start? path = some start) : Stands t start := by
  unfold start? at h
  split at h
  · obtain rfl := Option.some.inj h
    exact .root
  · exact Stands.root.of_enter h

theorem holds_of_target (h : t.target follow false path = .ok (.found l e)) : Holds t l e := by
  obtain ⟨start, -, hstart, harrives⟩ := exists_arrives h
  exact harrives.holds (stands_of_start hstart) rfl

/-! ### Going on -/

/-- A walk that ends in a directory can go on from there. What is left of the steps and the links at
    that place does not depend on where it goes. -/
theorem Arrives.walk_append (h : Arrives t true write wantDirectory fuel links place names goal)
    (hgoal : goal = .found l (.directory d)) :
    ∃ fuel' links' place', location place' = l ∧ t.directoryAt place' = d ∧
      ∀ (extra : Nat) (wantDirectory' : Bool) (next : ByteString) (rest : List ByteString),
        walk t true false wantDirectory' (fuel + extra) links place (names ++ next :: rest) =
          walk t true false wantDirectory' (fuel' + extra) links' place' (next :: rest) := by
  have hsucc (fuel extra : Nat) : fuel + 1 + extra = fuel + extra + 1 := by omega
  induction h with
  | @here _ fuel links place =>
    cases hgoal
    exact ⟨fuel, links, place, rfl, rfl, fun _ _ _ _ => rfl⟩
  | enter hstep _ ih =>
    simp only [List.cons_append, hsucc, walk_cons, hstep]
    exact ih hgoal
  | file _ => cases hgoal
  | link hfollow _ => cases hfollow
  | free _ _ => cases hgoal
  | @through _ _ _ _ _ names _ _ _ hstep _ ih =>
    -- The names of the link come first, whatever follows.
    obtain ⟨fuel', links', place', hl, hd, hgo⟩ := ih hgoal
    refine ⟨fuel', links', place', hl, hd, fun extra wantDirectory' next rest => ?_⟩
    have hempty : (names ++ next :: rest).isEmpty = false := by simp
    rw [List.cons_append, hsucc, walk_cons, hstep, ← hgo, List.append_assoc, hempty]
    simp

/-- The names of a clean path lead where the path leads, with steps to spare for one more name. -/
theorem exists_walk_settled (hpath : path.isEmpty = false) (hname : Path.IsEntryName name)
    (hstart : t.start? path.clean = some start) (h : t.Leads path.clean l (.directory d)) :
    ∃ wantDirectory fuel extra, stepLimit (Path.join [path, name]) = fuel + (extra + 1) ∧
      walk t true false wantDirectory fuel linkLimit start path.settled =
        .ok (.found l (.directory d)) := by
  obtain ⟨_, hfault, -⟩ := exists_start_of_target h
  rw [Leads, target_eq_walk hfault hstart] at h
  by_cases hdot : path.settled = [] ∧ path.isAbsolute = false
  · -- The path is a dot, which is one step more than no names.
    have hclean : path.clean = Path.here := by rw [Path.clean_eq, if_pos hdot]
    have hnames : Path.names Path.here = [Path.here] := by decide
    have hsteps : stepLimit Path.here = stepLimit Path.here - 1 + 1 := rfl
    rw [hclean, hnames, hsteps, walk_cons, step, if_pos rfl] at h
    dsimp only at h
    refine ⟨false, 0, stepLimit (Path.join [path, name]) - 1, ?_, ?_⟩
    · have hpos : 0 < stepLimit (Path.join [path, name]) := Nat.add_pos_right _ (by decide)
      omega
    · rw [hdot.1, ← h, walk_nil, walk_nil]
  · have hclean : path.clean = Path.ofNames path.isAbsolute path.settled := by
      rw [Path.clean_eq, if_neg hdot]
    have hnames : path.clean.names = path.settled := by
      rw [hclean]
      exact Path.names_ofNames fun _ => Path.isName_of_mem_settled
    have hlength := Path.length_clean_lt_join_entry hpath hname hdot
    rw [hnames] at h
    refine ⟨_, _, (Path.join [path, name]).length - path.clean.length - 1, ?_, h⟩
    unfold stepLimit
    omega

/-- The path of an entry leads to the entry, if it is a path at all. -/
theorem leads_join_entry (hpath : path.isEmpty = false) (hname : Path.IsEntryName name)
    (h : t.Leads path.clean l (.directory d)) (hlookup : d.lookup name = some e)
    (hlink : ∀ target, e ≠ .link target) {goal : Target}
    (hgoal : t.target true false (Path.join [path, name]) = .ok goal) :
    t.Leads (Path.join [path, name]) (l ++ [name]) e := by
  obtain ⟨start, hfault, hstart⟩ := exists_start_of_target hgoal
  have hstart' : t.start? path.clean = some start := by
    rw [start?, Path.isAbsolute_clean, ← Path.isAbsolute_join_entry hpath hname]
    exact hstart
  obtain ⟨wantDirectory, fuel, extra, hfuel, hwalk⟩ :=
    exists_walk_settled hpath hname hstart' h
  obtain ⟨fuel', links, place, rfl, rfl, hgo⟩ := (arrives_of_walk hwalk).walk_append rfl
  have hlast := hgo (extra + 1) (Path.join [path, name]).endsWithSlash name []
  rw [Leads]
  rw [target_eq_walk hfault hstart, Path.names_join_entry hpath hname, hfuel, hlast,
    ← Nat.add_assoc, walk_cons] at hgoal ⊢
  by_cases hlong : name.length ≤ Path.nameLimit
  · rw [step_of_lookup hname hlong, hlookup, Path.endsWithSlash_join_entry hpath hname]
    cases e with
    | link target => exact absurd rfl (hlink target)
    | file number => rfl
    | directory d =>
      simp only [walk_nil, location, directoryAt]
      simp
  · rw [step, if_neg hname.ne_here, if_neg hname.ne_above, if_pos (by omega)] at hgoal
    cases hgoal

/-! ### The last link -/

theorem Arrives.follow_file (h : Arrives t false write wantDirectory fuel links place names goal)
    (hgoal : goal = .found l (.file number)) :
    Arrives t true write wantDirectory fuel links place names goal := by
  induction h with
  | here => cases hgoal
  | enter hstep _ ih => exact .enter hstep (ih hgoal)
  | file hstep => exact .file hstep
  | link _ _ => cases hgoal
  | free _ _ => cases hgoal
  | through _ hstep _ ih => exact .through (by simp) hstep (ih hgoal)

theorem Arrives.ne_link (h : Arrives t true write wantDirectory fuel links place names goal) :
    goal ≠ .found l (.link target) := by
  intro hgoal
  induction h with
  | here => cases hgoal
  | enter _ _ ih => exact ih hgoal
  | file _ => cases hgoal
  | link hfollow _ => cases hfollow
  | free _ _ => cases hgoal
  | through _ _ _ ih => exact ih hgoal

theorem Leads.ne_link : ¬t.Leads path l (.link target) := by
  intro h
  obtain ⟨_, -, -, harrives⟩ := exists_arrives h
  exact harrives.ne_link rfl

theorem leads_of_target_file (h : t.target false false path = .ok (.found l (.file number))) :
    t.Leads path l (.file number) := by
  obtain ⟨start, hfault, hstart, harrives⟩ := exists_arrives h
  rw [Leads, target_eq_walk hfault hstart]
  exact (harrives.follow_file rfl).walk_eq

/-! ### All files -/

theorem filesOf_subset (l : Location) (h : (name, e) ∈ d) :
    filesOf (l ++ [name]) e ⊆ filesIn l d := by
  induction d with
  | nil => cases h
  | cons p d ih =>
    obtain ⟨first, e'⟩ := p
    rw [filesIn]
    rcases List.mem_cons.mp h with heq | hmem
    · obtain ⟨rfl, rfl⟩ := Prod.mk.inj heq
      exact List.subset_append_left _ _
    · exact List.subset_append_of_subset_right _ (ih hmem)

theorem Stands.filesIn_subset (h : Stands t place) :
    filesIn (location place) (t.directoryAt place) ⊆ filesIn [] t.root := by
  induction h with
  | root => exact List.Subset.refl _
  | @enter place name d _ hlookup ih =>
    have hsubset := filesOf_subset (location place) (Directory.mem_of_lookup hlookup)
    rw [filesOf] at hsubset
    rw [location_cons]
    exact List.Subset.trans hsubset ih

theorem Holds.mem_filesIn (h : t.Holds l (.file number)) : (l, number) ∈ filesIn [] t.root := by
  cases h with
  | @entry place name _ hplace hlookup =>
    have hsubset := filesOf_subset (location place) (Directory.mem_of_lookup hlookup)
    rw [filesOf] at hsubset
    exact hplace.filesIn_subset (hsubset List.mem_cons_self)

end FileTree

/-! ### Trees without links -/

mutual

/-- Whether there is a link at an entry or below. -/
def FileEntry.hasLinks : FileEntry → Bool
  | .file _ => false
  | .directory entries => Directory.hasLinks entries
  | .link _ => true

def Directory.hasLinks : Directory → Bool
  | [] => false
  | (_, e) :: entries => e.hasLinks || Directory.hasLinks entries

end

theorem Directory.hasLinks_of_mem (h : d.hasLinks = false) (hmem : (name, e) ∈ d) :
    e.hasLinks = false := by
  induction d with
  | nil => cases hmem
  | cons p d ih =>
    obtain ⟨first, e'⟩ := p
    rw [hasLinks, Bool.or_eq_false_iff] at h
    rcases List.mem_cons.mp hmem with heq | hmem
    · obtain ⟨rfl, rfl⟩ := Prod.mk.inj heq
      exact h.1
    · exact ih h.2 hmem

namespace FileTree

variable {t : FileTree} {goal : Target}

theorem Stands.hasLinks_directoryAt (h : Stands t place) (hlinks : t.root.hasLinks = false) :
    (t.directoryAt place).hasLinks = false := by
  induction h with
  | root => exact hlinks
  | enter _ hlookup ih =>
    have hentry := Directory.hasLinks_of_mem ih (Directory.mem_of_lookup hlookup)
    rwa [FileEntry.hasLinks] at hentry

/-- Where a name leads by itself, if it is that of no link. -/
def goTo (l : Location) (name : ByteString) : Location :=
  if name = Path.here then l else if name = Path.above then l.dropLast else l ++ [name]

theorem location_of_step (h : t.step place name = .enter place') :
    location place' = goTo (location place) name := by
  unfold step at h
  unfold goTo
  split_ifs at h ⊢
  · rw [Step.enter.inj h]
  · rw [← Step.enter.inj h]
    cases place with
    | nil => rfl
    | cons p place => simp [location]
  · split at h
    · cases h
    · rw [← Step.enter.inj h, location_cons]
    · cases h
    · cases h

theorem goTo_of_step_file (h : t.step place name = .file number) (l : Location) :
    goTo l name = l ++ [name] := by
  unfold step at h
  unfold goTo
  split_ifs at h ⊢
  rfl

/-- Without links, the names of a path say where it leads. -/
theorem Arrives.location_eq (h : Arrives t follow write wantDirectory fuel links place names goal)
    (hplace : Stands t place) (hlinks : t.root.hasLinks = false) (hgoal : goal = .found l e) :
    l = names.foldl goTo (location place) := by
  have hno {place : Place} {name : ByteString} {target : Path} (hplace : Stands t place) :
      t.step place name ≠ .link target := by
    intro hstep
    have hentry := Directory.hasLinks_of_mem (hplace.hasLinks_directoryAt hlinks)
      (Directory.mem_of_lookup (lookup_of_step_link hstep))
    rw [FileEntry.hasLinks] at hentry
    cases hentry
  induction h with
  | here =>
    cases hgoal
    rfl
  | enter hstep _ ih =>
    rw [List.foldl_cons, ← location_of_step hstep]
    exact ih (hplace.of_step hstep) hgoal
  | file hstep =>
    cases hgoal
    exact (goTo_of_step_file hstep _).symm
  | link _ hstep => exact absurd hstep (hno hplace)
  | free _ _ => cases hgoal
  | through _ hstep _ _ => exact absurd hstep (hno hplace)

theorem foldl_goTo_names_clean (path : Path) (l : Location) :
    path.clean.names.foldl goTo l = path.settled.foldl goTo l := by
  rw [Path.clean_eq]
  split
  · rename_i h
    rw [h.1]
    rfl
  · rw [Path.names_ofNames fun _ => Path.isName_of_mem_settled]

theorem foldl_goTo_of_not_above (h : Path.above ∉ names) (l : Location) :
    names.foldl goTo l = l ++ names.filter (· ≠ Path.here) := by
  induction names generalizing l with
  | nil => simp
  | cons name names ih =>
    obtain ⟨hne, hnames⟩ := List.ne_and_not_mem_of_not_mem_cons h
    rw [List.foldl_cons, ih hnames]
    by_cases hhere : name = Path.here
    · simp [goTo, hhere]
    · simp [goTo, hhere, Ne.symm hne]

/-- Without links, a path that does not lead upwards leads below where the path in front of it
    leads. -/
theorem Leads.prefix_of_join {rest : Path} (hlinks : t.root.hasLinks = false)
    (hpath : path.isEmpty = false) (hstart : t.start? path = some start)
    (hrest : Path.above ∉ rest.names) (h : t.Leads (Path.join [path, rest]) l e) :
    path.settled.foldl goTo (location start) <+: l := by
  obtain ⟨start', -, hstart', harrives⟩ := exists_arrives h
  have hl := harrives.location_eq (stands_of_start hstart') hlinks rfl
  have habs : (Path.join [path, rest]).isAbsolute = path.isAbsolute := by
    rw [Path.join_pair hpath, Path.isAbsolute_clean, Path.isAbsolute_append_slash hpath]
  have heq : start' = start := by
    rw [start?, habs] at hstart'
    rw [start?] at hstart
    exact Option.some.inj (hstart'.symm.trans hstart)
  rw [Path.join_pair hpath, foldl_goTo_names_clean, Path.settled_append_slash hpath hrest,
    List.foldl_append, heq] at hl
  rw [hl, foldl_goTo_of_not_above fun hmem => hrest (List.mem_of_mem_filter hmem)]
  exact List.prefix_append _ _

end FileTree

end ClassAudit
