import ClassAudit.Proofs.ClassPath.Overrides

/-! # The search ends

    The search for overridden methods is a loop over a queue. A turn of it takes one name from the
    queue and loads its class, unless the name was visited; then the supertypes of the class come
    to the end of the queue. So the queue can grow with every turn, and classes can lead back to
    each other, to themselves, or to names that they do not carry.

    What shrinks is the number of names that were not visited. They all come from classes at hand:
    those in the cache, and those in files and archives. A load takes one of these and brings no
    other to hand, and so each loop has one run. It ends, and in it no name is loaded twice.
-/

namespace ClassAudit

namespace ClassPath

open Traversal

/-! ### Turns of the loop -/

/-- One turn of the loop, and the name that it loads, if it loads one. -/
def turn (t : FileTree) (start method descriptor : String) (s : Search) : Option String × Turn :=
  match s.queue with
  | [] => (none, .done (.ok s.found) s.classPath)
  | name :: queue =>
    if s.visited.contains name then (none, .next { s with queue })
    else (some name, visit t start method descriptor s name queue)

/-- A run of the loop from a state to its end, with the names that it loads in order. -/
inductive Runs (t : FileTree) (start method descriptor : String) :
    Search → List String → Except Failure (List CallTarget) × ClassPath → Prop where
  | last {s : Search} {name? : Option String} {result : Except Failure (List CallTarget)}
      {classPath : ClassPath} :
      turn t start method descriptor s = (name?, .done result classPath) →
      Runs t start method descriptor s name?.toList (result, classPath)
  | next {s s' : Search} {name? : Option String} {names : List String}
      {r : Except Failure (List CallTarget) × ClassPath} :
      turn t start method descriptor s = (name?, .next s') →
      Runs t start method descriptor s' names r →
      Runs t start method descriptor s (name?.toList ++ names) r

variable {t : FileTree} {start method descriptor : String} {s s' : Search}

/-- A visit that does not end the loop marks the name as visited, and the queue gets the
    supertypes of the class, if there is one. -/
theorem visit_eq_next {name : String} {queue : List String}
    (h : visit t start method descriptor s name queue = .next s') :
    s'.classPath = (s.classPath.load t name).2 ∧ s'.visited = s.visited.insert name ∧
      (s'.queue = queue ∨
        ∃ cf, (s.classPath.load t name).1 = .ok cf ∧ s'.queue = queue ++ cf.supertypes) := by
  rcases visit_cases t start method descriptor s name queue with
    ⟨result, hdone⟩ | ⟨queue', found, hnext, hqueue⟩
  · cases hdone.symm.trans h
  · obtain rfl := Turn.next.inj (hnext.symm.trans h)
    exact ⟨rfl, rfl, hqueue⟩

/-- A turn that does not end the loop skips a visited name, or it visits one. -/
theorem turn_eq_next {name? : Option String}
    (h : turn t start method descriptor s = (name?, .next s')) :
    (name? = none ∧ s'.visited = s.visited) ∨
      ∃ name, name? = some name ∧ s.visited.contains name = false ∧
        s'.visited = s.visited.insert name := by
  unfold turn at h
  split at h
  · nomatch h
  · next name queue hqueue =>
    split at h
    · obtain ⟨hname, hturn⟩ := Prod.mk.inj h
      obtain rfl := Turn.next.inj hturn
      exact .inl ⟨hname.symm, rfl⟩
    · next hnot =>
      obtain ⟨hname, hturn⟩ := Prod.mk.inj h
      exact .inr ⟨name, hname.symm, Bool.eq_false_iff.mpr hnot, (visit_eq_next hturn).2.1⟩

theorem turn_loads {name : String} {after : Turn}
    (h : turn t start method descriptor s = (some name, after)) :
    s.visited.contains name = false := by
  unfold turn at h
  split at h
  · nomatch h
  · split at h
    · nomatch h
    · next hnot =>
      rw [← Option.some.inj (Prod.mk.inj h).1]
      exact Bool.eq_false_iff.mpr hnot

/-! ### Runs of the loop -/

namespace Runs

variable {names names' : List String} {r r' : Except Failure (List CallTarget) × ClassPath}

theorem unique (h : Runs t start method descriptor s names r)
    (h' : Runs t start method descriptor s names' r') : names = names' ∧ r = r' := by
  induction h generalizing names' with
  | last hturn =>
    cases h' with
    | last hturn' =>
      obtain ⟨rfl, hdone⟩ := Prod.mk.inj (hturn.symm.trans hturn')
      obtain ⟨rfl, rfl⟩ := Turn.done.inj hdone
      exact ⟨rfl, rfl⟩
    | next hturn' _ => nomatch (Prod.mk.inj (hturn.symm.trans hturn')).2
  | next hturn _ ih =>
    cases h' with
    | last hturn' => nomatch (Prod.mk.inj (hturn.symm.trans hturn')).2
    | next hturn' hrest =>
      obtain ⟨rfl, hnext⟩ := Prod.mk.inj (hturn.symm.trans hturn')
      obtain rfl := Turn.next.inj hnext
      obtain ⟨rfl, rfl⟩ := ih hrest
      exact ⟨rfl, rfl⟩

/-- A run loads no name twice, and none that was visited before. -/
theorem loads_once (h : Runs t start method descriptor s names r) :
    names.Nodup ∧ ∀ name ∈ names, s.visited.contains name = false := by
  induction h with
  | @last s name? _ _ hturn =>
    cases name? with
    | none => exact ⟨List.nodup_nil, fun _ h => nomatch h⟩
    | some name =>
      refine ⟨List.nodup_singleton name, fun other hother => ?_⟩
      rw [List.mem_singleton.mp hother]
      exact turn_loads hturn
  | @next s s' _ names _ hturn _ ih =>
    obtain ⟨hnodup, hnew⟩ := ih
    rcases turn_eq_next hturn with ⟨rfl, hvisited⟩ | ⟨name, rfl, hname, hvisited⟩
    · rw [hvisited] at hnew
      exact ⟨hnodup, hnew⟩
    · -- What is loaded later was visited neither before this turn nor in it.
      have hlater : ∀ other ∈ names, name ≠ other ∧ s.visited.contains other = false := by
        intro other hother
        have hafter := hnew other hother
        rw [hvisited, Std.HashSet.contains_insert, Bool.or_eq_false_iff,
          beq_eq_false_iff_ne] at hafter
        exact hafter
      refine ⟨List.nodup_cons.mpr ⟨fun hmem => (hlater name hmem).1 rfl, hnodup⟩, ?_⟩
      intro other hother
      rcases List.mem_cons.mp hother with rfl | hother
      · exact hname
      · exact (hlater other hother).2

/-- The loop skips the visited names at the front of the queue. -/
theorem skip {cp : ClassPath} {visited : Std.HashSet String} {queue : List String}
    {found : List CallTarget}
    (h : Runs t start method descriptor ⟨cp, visited, queue.dropWhile visited.contains, found⟩
      names r) :
    Runs t start method descriptor ⟨cp, visited, queue, found⟩ names r := by
  induction queue with
  | nil => exact h
  | cons name queue ih =>
    rw [List.dropWhile_cons] at h
    split at h
    · next hvisited =>
      have hturn : turn t start method descriptor ⟨cp, visited, name :: queue, found⟩ =
          (none, .next ⟨cp, visited, queue, found⟩) := by
        rw [turn]
        exact if_pos hvisited
      exact .next hturn (ih h)
    · exact h

end Runs

/-! ### The classes at hand -/

/-- The classes that a class path can load: those in its cache, and those in files and archives. -/
def atHand (t : FileTree) (cp : ClassPath) : List ClassFile :=
  cp.cache.entries.map Prod.snd ++ classes t cp.roots

theorem mem_atHand_of_lookup {cp : ClassPath} {name : String} {cf : ClassFile}
    (h : cp.cache.entries.lookup name = some cf) (t : FileTree) : cf ∈ cp.atHand t := by
  obtain ⟨front, back, hentries, -⟩ := List.lookup_eq_some_iff.mp h
  refine List.mem_append_left _ (List.mem_map.mpr ⟨(name, cf), ?_, rfl⟩)
  rw [hentries]
  exact List.mem_append_right _ List.mem_cons_self

/-- A load takes a class at hand and leaves it there, or it fails and changes nothing. The class is
    the only one that the cache may not have had. -/
theorem load_cases (t : FileTree) (cp : ClassPath) (name : String) :
    (∃ cf cp', cp.load t name = (.ok cf, cp') ∧ cp'.roots = cp.roots ∧
      cp'.cache.entries ⊆ (name, cf) :: cp.cache.entries ∧ cf ∈ cp.atHand t ∧ cf ∈ cp'.atHand t) ∨
    ∃ e, cp.load t name = (.error e, cp) := by
  have hrenewed : ∀ cf, (name, cf) :: cp.cache.entries.filter (·.1 ≠ name) ⊆
      (name, cf) :: cp.cache.entries :=
    fun cf => List.cons_subset_cons _ (List.filter_subset_self _)
  unfold load Cache.get?
  cases hlookup : cp.cache.entries.lookup name with
  | some cf =>
    refine .inl ⟨cf, _, rfl, rfl, hrenewed cf, mem_atHand_of_lookup hlookup t, ?_⟩
    exact List.mem_append_left _ List.mem_cons_self
  | none =>
    cases hfind : find t name cp.roots with
    | error e => exact .inr ⟨e, rfl⟩
    | ok cf =>
      have hclass := mem_classes_of_find hfind
      refine .inl ⟨cf, _, rfl, rfl, ?_, List.mem_append_right _ hclass,
        List.mem_append_right _ hclass⟩
      exact List.Subset.trans (List.take_subset _ _) (hrenewed cf)

theorem mem_atHand_of_load {cp cp' : ClassPath} {name : String} {cf : ClassFile}
    (h : cp.load t name = (.ok cf, cp')) : cf ∈ cp.atHand t ∧ cf ∈ cp'.atHand t := by
  rcases load_cases t cp name with ⟨cf', cp'', hload, -, -, hbefore, hafter⟩ | ⟨e, hload⟩
  · obtain ⟨hcf, rfl⟩ := Prod.mk.inj (hload.symm.trans h)
    obtain rfl := Except.ok.inj hcf
    exact ⟨hbefore, hafter⟩
  · cases hload.symm.trans h

theorem mem_cache_of_load {cp : ClassPath} {name : String} {cf : ClassFile}
    (h : cf ∈ (cp.load t name).2.cache.entries.map Prod.snd) : cf ∈ cp.atHand t := by
  obtain ⟨entry, hentry, rfl⟩ := List.mem_map.mp h
  rcases load_cases t cp name with ⟨cf, cp', hload, -, hentries, hbefore, -⟩ | ⟨e, hload⟩
  · rw [hload] at hentry
    rcases List.mem_cons.mp (hentries hentry) with rfl | hold
    · exact hbefore
    · exact List.mem_append_left _ (List.mem_map_of_mem hold)
  · rw [hload] at hentry
    exact List.mem_append_left _ (List.mem_map_of_mem hentry)

theorem roots_load (t : FileTree) (cp : ClassPath) (name : String) :
    (cp.load t name).2.roots = cp.roots := by
  rcases load_cases t cp name with ⟨cf, cp', hload, hroots, -⟩ | ⟨e, hload⟩
  · rw [hload]
    exact hroots
  · rw [hload]

theorem atHand_load_subset (t : FileTree) (cp : ClassPath) (name : String) :
    (cp.load t name).2.atHand t ⊆ cp.atHand t := by
  intro cf hcf
  rcases List.mem_append.mp hcf with hcached | hclass
  · exact mem_cache_of_load hcached
  · rw [roots_load] at hclass
    exact List.mem_append_right _ hclass

/-- Every class in the cache was read from some bytes. -/
def FromBytes (cp : ClassPath) : Prop :=
  ∀ cf ∈ cp.cache.entries.map Prod.snd, ∃ data, ClassFile.parse data = .ok cf

theorem FromBytes.atHand {cp : ClassPath} (h : cp.FromBytes) (t : FileTree) :
    ∀ cf ∈ cp.atHand t, ∃ data, ClassFile.parse data = .ok cf := by
  intro cf hcf
  rcases List.mem_append.mp hcf with hcached | hclass
  · exact h cf hcached
  · exact parse_of_mem_classes hclass

theorem FromBytes.load {cp : ClassPath} (h : cp.FromBytes) (t : FileTree) (name : String) :
    (cp.load t name).2.FromBytes :=
  fun cf hcf => h.atHand t cf (mem_cache_of_load hcf)

/-- The classes at hand do not refer to more names than the limit says. -/
theorem length_atHand_names_le {cp : ClassPath} (h : cp.FromBytes) (t : FileTree) :
    ((cp.atHand t).flatMap ClassFile.supertypes).length ≤ cp.nameLimit t := by
  have hclasses := length_classes_le t cp.roots
  have hcount : (cp.atHand t).length = cp.cache.entries.length + (classes t cp.roots).length := by
    rw [atHand, List.length_append, List.length_map]
  calc ((cp.atHand t).flatMap ClassFile.supertypes).length
      ≤ supertypeLimit * (cp.atHand t).length := length_flatMap_supertypes_le (h.atHand t)
    _ ≤ cp.nameLimit t := Nat.mul_le_mul_left _ (by omega)

/-- A class path as programs have it, where the files may change between its uses: a new one, or one
    that is left when a class has been loaded or overridden methods have been searched. -/
inductive InUse : ClassPath → Prop where
  | new {t : FileTree} {size : Int} {paths : List Path} {cp : ClassPath} :
      ofRoots t size paths = .ok cp → InUse cp
  | load {cp : ClassPath} (t : FileTree) (name : String) : InUse cp → InUse (cp.load t name).2
  | overrides {cp : ClassPath} (t : FileTree) (className method descriptor : String) :
      InUse cp → InUse (cp.overrides t className method descriptor).2

theorem InUse.fromBytes {cp : ClassPath} (h : InUse cp) : cp.FromBytes := by
  induction h with
  | new hnew =>
    intro cf hcf
    rw [entries_ofRoots hnew] at hcf
    nomatch hcf
  | load t name _ ih => exact ih.load t name
  | overrides t className method descriptor _ ih =>
    exact overrides_keeps (fun _ name hcp => hcp.load t name) ih _ _ _

/-! ### The run of a search -/

/-- A turn with a name that was not visited visits it. -/
theorem turn_visit {name : String} {queue : List String} (hqueue : s.queue = name :: queue)
    (hname : s.visited.contains name = false) :
    turn t start method descriptor s =
      (some name, visit t start method descriptor s name queue) := by
  rw [turn, hqueue]
  exact if_neg (Bool.eq_false_iff.mp hname)

theorem runs_end (hdrop : s.queue.dropWhile s.visited.contains = []) :
    Runs t start method descriptor s [] (.ok s.found, s.classPath) := by
  have hturn : turn t start method descriptor { s with queue := [] } =
      (none, .done (.ok s.found) s.classPath) := rfl
  refine .skip ?_
  rw [hdrop]
  exact .last hturn

theorem runs_visit {name : String} {queue : List String}
    (hdrop : s.queue.dropWhile s.visited.contains = name :: queue)
    (hname : s.visited.contains name = false)
    {f : Search → Except Failure (List CallTarget) × ClassPath}
    (hnext : ∀ s', visit t start method descriptor s name queue = .next s' →
      ∃ names, Runs t start method descriptor s' names (f s')) :
    ∃ names, Runs t start method descriptor s names
      ((visit t start method descriptor s name queue).andThen f) := by
  have hturn := @turn_visit t start method descriptor { s with queue := name :: queue } name queue
    rfl hname
  cases hvisit : visit t start method descriptor s name queue with
  | done result cp =>
    refine ⟨[name], .skip ?_⟩
    rw [hdrop]
    exact .last (hturn.trans (congrArg _ hvisit))
  | next s' =>
    obtain ⟨names, hrun⟩ := hnext s' hvisit
    refine ⟨name :: names, .skip ?_⟩
    rw [hdrop]
    exact .next (hturn.trans (congrArg _ hvisit)) hrun

theorem not_contains_of_dropWhile {visited : Std.HashSet String} {queue rest : List String}
    {name : String} (h : queue.dropWhile visited.contains = name :: rest) :
    visited.contains name = false ∧ name :: rest ⊆ queue := by
  have hhead := List.head?_dropWhile_not visited.contains queue
  rw [h] at hhead
  refine ⟨by simpa using hhead, ?_⟩
  rw [← h]
  exact (List.dropWhile_suffix _).subset

/-- The search is a run of the loop if its fuel is not less than the number of names that are left:
    those of the classes at hand that were not visited. -/
theorem exists_runs_search {cfs : List ClassFile} (hcfs : s.classPath.atHand t ⊆ cfs)
    {seen : List String} (hseen : ∀ name, s.visited.contains name = decide (name ∈ seen))
    (hqueue : s.queue ⊆ cfs.flatMap ClassFile.supertypes) {fuel : Nat}
    (hfuel : ((cfs.flatMap ClassFile.supertypes).filter (· ∉ seen)).length ≤ fuel) :
    ∃ names, Runs t start method descriptor s names (search t start method descriptor fuel s) := by
  have hnames : ∀ cf ∈ cfs, cf.supertypes ⊆ cfs.flatMap ClassFile.supertypes :=
    fun cf hcf name hname => List.mem_flatMap.mpr ⟨cf, hcf, hname⟩
  induction fuel generalizing s seen with
  | zero =>
    cases hdrop : s.queue.dropWhile s.visited.contains with
    | nil => exact ⟨[], runs_end hdrop⟩
    | cons name queue =>
      -- Then a name is left, and there would be fuel for it.
      obtain ⟨hname, hsubset⟩ := not_contains_of_dropWhile hdrop
      rw [hseen, decide_eq_false_iff_not] at hname
      have hless := length_left_lt (hqueue (hsubset List.mem_cons_self)) hname
      omega
  | succ fuel ih =>
    cases hdrop : s.queue.dropWhile s.visited.contains with
    | nil =>
      rw [search_end hdrop]
      exact ⟨[], runs_end hdrop⟩
    | cons name queue =>
      obtain ⟨hname, hsubset⟩ := not_contains_of_dropWhile hdrop
      obtain ⟨hmem, hrest⟩ := List.cons_subset.mp (List.Subset.trans hsubset hqueue)
      rw [search_visit hdrop]
      refine runs_visit hdrop hname fun s' hvisit => ?_
      obtain ⟨hcp, hvisited, hnew⟩ := visit_eq_next hvisit
      have hcfs' : s'.classPath.atHand t ⊆ cfs := by
        rw [hcp]
        exact List.Subset.trans (atHand_load_subset t s.classPath name) hcfs
      have hqueue' : s'.queue ⊆ cfs.flatMap ClassFile.supertypes := by
        rcases hnew with hsame | ⟨cf, hload, hmore⟩
        · rw [hsame]
          exact hrest
        · rw [hmore]
          have hcf := mem_atHand_of_load (Prod.ext hload rfl)
          exact List.append_subset.mpr ⟨hrest, hnames cf (hcfs hcf.1)⟩
      refine ih hcfs' (hvisited ▸ contains_insert_eq hseen name) hqueue' ?_
      -- The queue may have grown, but there is one name less that was not visited.
      rw [hseen, decide_eq_false_iff_not] at hname
      have hless := length_left_lt hmem hname
      omega

/-- The loop of a search has one run, which is what the search gives. It loads no name twice, and
    never the name of the class with which the search starts. -/
theorem overrides_ends {cp cp' : ClassPath} (hused : InUse cp) {t : FileTree} {className : String}
    {start : ClassFile} (hstart : cp.load t (ClassName.internal className) = (.ok start, cp'))
    (method descriptor : String) :
    ∃ loaded : List String,
      (∀ names r, Runs t start.name method descriptor ⟨cp', {start.name}, start.supertypes, []⟩
        names r ↔ names = loaded ∧ r = cp.overrides t className method descriptor) ∧
      loaded.Nodup ∧ start.name ∉ loaded := by
  have hfrom : cp'.FromBytes := by
    have hafter := hused.fromBytes.load t (ClassName.internal className)
    rwa [hstart] at hafter
  have hqueue : start.supertypes ⊆ (cp'.atHand t).flatMap ClassFile.supertypes :=
    fun name hname => List.mem_flatMap.mpr ⟨start, (mem_atHand_of_load hstart).2, hname⟩
  have hleft : (((cp'.atHand t).flatMap ClassFile.supertypes).filter
      (· ∉ [start.name])).length ≤ cp'.nameLimit t + 2 := by
    have hfilter := List.length_filter_le (· ∉ [start.name])
      ((cp'.atHand t).flatMap ClassFile.supertypes)
    have hlimit := length_atHand_names_le hfrom t
    omega
  obtain ⟨loaded, hrun⟩ := @exists_runs_search t start.name method descriptor
    ⟨cp', {start.name}, start.supertypes, []⟩ _ (List.Subset.refl _) _
    (contains_singleton_eq start.name) hqueue _ hleft
  have hresult : cp.overrides t className method descriptor =
      search t start.name method descriptor (cp'.nameLimit t + 2)
        ⟨cp', {start.name}, start.supertypes, []⟩ := by
    rw [overrides, hstart]
  rw [← hresult] at hrun
  obtain ⟨hnodup, hnew⟩ := hrun.loads_once
  refine ⟨loaded, fun names r => ⟨fun h => h.unique hrun, ?_⟩, hnodup, fun hmem => ?_⟩
  · rintro ⟨rfl, rfl⟩
    exact hrun
  · have hnot := hnew start.name hmem
    rw [contains_singleton_eq] at hnot
    simp at hnot

/-- A class `q/Z` in the file of `p/A`, which is an interface of itself, and a class `p/B`. Each is
    the superclass of the other, and `p/B` is an interface of itself. -/
def loopTree : FileTree where
  root := [("p", .directory [("A.class", .file 0), ("B.class", .file 1)])]
  contents := #[(sampleBytes "q/Z" "p/B" "q/Z").toByteArray,
    (sampleBytes "p/B" "p/A" "p/B").toByteArray]
  current := []

/-- What the files of the loop say. -/
theorem loop_facts :
    "p/B" ∈ supertypesOf loopTree samplePath.roots "p/A" ∧
    "p/A" ∈ supertypesOf loopTree samplePath.roots "p/B" ∧
    ∀ cf ∈ (find loopTree "p/A" samplePath.roots).toOption.toList, cf.name = "q/Z" := by
  decide +kernel

theorem overrides_ends_loop :
    ∃ start cp', samplePath.load loopTree (ClassName.internal "p.A") = (.ok start, cp') ∧
      start.name = "q/Z" ∧ "p/B" ∈ start.supertypes ∧
      "p/A" ∈ supertypesOf loopTree samplePath.roots "p/B" ∧ ∃ loaded : List String,
        (∀ names r, Runs loopTree "q/Z" "run" "()V" ⟨cp', {"q/Z"}, start.supertypes, []⟩
          names r ↔ names = loaded ∧ r = samplePath.overrides loopTree "p.A" "run" "()V") ∧
        loaded.Nodup ∧ "q/Z" ∉ loaded := by
  have hnew : ofRoots loopTree 16 ["."] = .ok samplePath := opened_here _ _
  obtain ⟨hsuper, hback, hcarries⟩ := loop_facts
  obtain ⟨start, hfind⟩ := exists_class_of_mem hsuper
  have hname : start.name = "q/Z" := by
    apply hcarries
    rw [hfind]
    exact List.mem_cons_self
  obtain ⟨cp', hload, -, -⟩ := load_spec (coherent_ofRoots hnew) "p/A"
  rw [hfind] at hload
  have hends := @overrides_ends samplePath cp' (.new hnew) loopTree "p.A" start hload "run" "()V"
  rw [hname] at hends
  rw [supertypesOf_eq hfind] at hsuper
  exact ⟨start, cp', hload, hname, hsuper, hback, hends⟩

end ClassPath

end ClassAudit
