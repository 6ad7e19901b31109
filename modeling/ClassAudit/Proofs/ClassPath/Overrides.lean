import ClassAudit.Proofs.ClassPath.Loading
import ClassAudit.Proofs.ClassPath.Traversal

/-! # Overridden methods of supertypes

    The search for overridden methods visits the supertypes of a class as a traversal does, and
    collects what each visit gives (`search_eq`). So it succeeds if every visit does, and what it
    finds is known from the traversal.
-/

namespace ClassAudit

/-! ### Collecting results -/

theorem mapM_eq_ok {ε α β : Type} {f : α → Except ε β} {g : α → β} {xs : List α}
    (h : ∀ x ∈ xs, f x = .ok (g x)) : xs.mapM f = .ok (xs.map g) := by
  induction xs with
  | nil => rfl
  | cons x xs ih =>
    obtain ⟨hx, hxs⟩ := List.forall_mem_cons.mp h
    rw [List.mapM_cons, hx, ih hxs]
    rfl

theorem mapM_eq_error {ε α β : Type} {f : α → Except ε β} {xs : List α} {x : α} {e : ε}
    (hx : x ∈ xs) (h : f x = .error e) : ∃ e', xs.mapM f = .error e' := by
  induction xs with
  | nil => nomatch hx
  | cons y xs ih =>
    rw [List.mapM_cons]
    cases hy : f y with
    | error e' => exact ⟨e', rfl⟩
    | ok b =>
      have hne : x ≠ y := by
        rintro rfl
        rw [hy] at h
        nomatch h
      obtain ⟨e', he'⟩ := ih ((List.mem_cons.mp hx).resolve_left hne)
      rw [he']
      exact ⟨e', rfl⟩

namespace ClassPath

open Traversal (Reachable Succ Walk distance)

variable {t : FileTree} {roots : List ClassRoot} {method descriptor : String}

/-! ### Supertypes -/

/-- A class that is found has a supertype: its superclass or an interface. -/
inductive Supertype (t : FileTree) (roots : List ClassRoot) : String → String → Prop where
  | superclass {name : String} {cf : ClassFile} :
      find t name roots = .ok cf → cf.superName ≠ "" → Supertype t roots name cf.superName
  | interface {name other : String} {cf : ClassFile} :
      find t name roots = .ok cf → other ∈ cf.interfaces → Supertype t roots name other

/-- A name is reached from another one through supertypes. -/
abbrev Reaches (t : FileTree) (roots : List ClassRoot) : String → String → Prop :=
  Reachable (Supertype t roots)

/-- The classes that are reached from a name, without the class with that name. Each of them is
    listed once, and the nearer ones come first. -/
structure NearestFirst (t : FileTree) (roots : List ClassRoot) (start : String)
    (classes : List ClassFile) : Prop where
  nodup : (classes.map ClassFile.name).Nodup
  mem_iff : ∀ cf, cf ∈ classes ↔
    cf.name ≠ start ∧ Reaches t roots start cf.name ∧ find t cf.name roots = .ok cf
  ordered : classes.Pairwise fun a b =>
    distance (Supertype t roots) start a.name ≤ distance (Supertype t roots) start b.name

/-- The supertypes of the class with a name, none if it is not found. -/
def supertypesOf (t : FileTree) (roots : List ClassRoot) (name : String) : List String :=
  match find t name roots with
  | .ok cf => cf.supertypes
  | .error _ => []

theorem supertypesOf_eq {name : String} {cf : ClassFile} (h : find t name roots = .ok cf) :
    supertypesOf t roots name = cf.supertypes := by
  rw [supertypesOf, h]

theorem mem_supertypesOf_iff {name other : String} :
    other ∈ supertypesOf t roots name ↔ Supertype t roots name other := by
  constructor
  · intro h
    unfold supertypesOf at h
    split at h
    · next cf hfind =>
      unfold ClassFile.supertypes at h
      rcases List.mem_append.mp h with h | h
      · by_cases hsuper : cf.superName = ""
        · simp [hsuper] at h
        · rw [if_neg hsuper, List.mem_singleton] at h
          rw [h]
          exact .superclass hfind hsuper
      · exact .interface hfind h
    · nomatch h
  · intro h
    cases h with
    | superclass hfind hsuper =>
      rw [supertypesOf_eq hfind, ClassFile.supertypes, if_neg hsuper]
      exact List.mem_append_left _ List.mem_cons_self
    | interface hfind hother =>
      rw [supertypesOf_eq hfind]
      exact List.mem_append_right _ hother

theorem exists_class_of_mem {name other : String} (h : other ∈ supertypesOf t roots name) :
    ∃ cf, find t name roots = .ok cf := by
  cases mem_supertypesOf_iff.mp h with
  | superclass hfind _ => exact ⟨_, hfind⟩
  | interface hfind _ => exact ⟨_, hfind⟩

theorem succ_supertypesOf (t : FileTree) (roots : List ClassRoot) :
    Succ (supertypesOf t roots) = Supertype t roots := by
  funext name other
  exact propext mem_supertypesOf_iff

/-- What is reached from a name lies in every list of names that is closed under supertypes. -/
theorem mem_of_reaches {names : List String}
    (hclosed : ∀ a ∈ names, ∀ b ∈ supertypesOf t roots a, b ∈ names) {start name : String}
    (hstart : start ∈ names) (h : Reaches t roots start name) : name ∈ names := by
  obtain ⟨n, hwalk⟩ := h
  induction hwalk with
  | refl => exact hstart
  | step _ hstep ih => exact hclosed _ ih _ (mem_supertypesOf_iff.mpr hstep)

/-! ### One visit -/

theorem eq_of_find_eq_classNotFound {name other : String}
    (h : find t name roots = .error (.classNotFound other)) : other = name := by
  induction roots with
  | nil => exact (Failure.classNotFound.inj (Except.error.inj h)).symm
  | cons root roots ih =>
    rw [find] at h
    split at h
    · cases h
    · exact ih h
    · split at h
      · cases h
      · cases h

/-- A supertype does no harm: its class is found, or it is missing and one of the platform. -/
def Resolved (t : FileTree) (roots : List ClassRoot) (name : String) : Prop :=
  (∃ cf, find t name roots = .ok cf) ∨
    (find t name roots = .error (.classNotFound name) ∧ ClassName.isPlatform name = true)

theorem resolved_iff {name : String} : Resolved t roots name ↔
    (match find t name roots with
      | .ok _ => true
      | .error (.classNotFound _) => ClassName.isPlatform name
      | .error _ => false) = true := by
  unfold Resolved
  split
  · next cf hfind => simp [hfind]
  · next other hfind =>
    rw [hfind, eq_of_find_eq_classNotFound hfind]
    simp
  · next e hother hfind =>
    rw [hfind]
    simp only [reduceCtorEq, exists_false, false_or, Bool.false_eq_true, iff_false]
    intro h
    exact hother name (Except.error.inj h.1)

instance (name : String) : Decidable (Resolved t roots name) :=
  decidable_of_iff _ resolved_iff.symm

/-- What the visit of a supertype gives. -/
def visitResult (t : FileTree) (roots : List ClassRoot) (start method descriptor name : String) :
    Except Failure (List CallTarget) :=
  match find t name roots with
  | .ok cf => (declarations cf method descriptor).mapError .descriptor
  | .error (.classNotFound missing) =>
    if ClassName.isPlatform name then .ok []
    else .error (.within ("hierarchy: supertype of " ++ start) (.classNotFound missing))
  | .error e => .error (.within ("hierarchy: supertype of " ++ start) e)

theorem visitResult_of_not_resolved {start name : String} (h : ¬ Resolved t roots name) :
    ∃ e, visitResult t roots start method descriptor name = .error e := by
  unfold visitResult
  split
  · next cf hfind => exact absurd (.inl ⟨cf, hfind⟩) h
  · next missing hfind =>
    split
    · next hplatform =>
      rw [eq_of_find_eq_classNotFound hfind] at hfind
      exact absurd (.inr ⟨hfind, hplatform⟩) h
    · exact ⟨_, rfl⟩
  · exact ⟨_, rfl⟩

/-- A method that a method with a name and a descriptor overrides. -/
def Overridable (method descriptor : String) (m : Method) : Prop :=
  m.name = method ∧ m.descriptor = descriptor ∧
    m.access &&& Access.isPrivate = 0 ∧ m.access &&& Access.isStatic = 0

instance (method descriptor : String) : DecidablePred (Overridable method descriptor) :=
  fun _ => inferInstanceAs (Decidable (_ ∧ _))

/-- One target for each declaration in a class that is overridden. -/
def targets (method descriptor : String) (type : MethodType) (cf : ClassFile) : List CallTarget :=
  (cf.methods.filter (Overridable method descriptor ·)).map fun m =>
    ⟨ClassName.binary cf.name, type.sourceSignature m.name⟩

theorem declarations_eq_ok {type : MethodType}
    (htype : Descriptor.parseMethod descriptor = .ok type) (cf : ClassFile) :
    declarations cf method descriptor = .ok (targets method descriptor type cf) := by
  have hfilter : (cf.methods.filter fun m => m.name == method && m.descriptor == descriptor &&
      !Access.hasAny m.access [Access.isPrivate, Access.isStatic]) =
      cf.methods.filter (Overridable method descriptor ·) := by
    refine List.filter_congr fun m _ => ?_
    rw [Bool.eq_iff_iff, decide_eq_true_eq]
    simp [Overridable, Access.hasAny, and_assoc]
  unfold declarations targets
  rw [hfilter]
  refine mapM_eq_ok fun m hm => ?_
  have hdescriptor : m.descriptor = descriptor := by
    have hover := (List.mem_filter.mp hm).2
    rw [decide_eq_true_eq] at hover
    exact hover.2.1
  rw [CallTarget.ofMember, hdescriptor, htype]
  rfl

/-- A supertype that does no harm gives the declarations in its class, if there is one. -/
theorem visitResult_of_resolved {type : MethodType}
    (htype : Descriptor.parseMethod descriptor = .ok type) {start name : String}
    (h : Resolved t roots name) : visitResult t roots start method descriptor name =
      .ok ((find t name roots).toOption.toList.flatMap (targets method descriptor type)) := by
  unfold visitResult
  rcases h with ⟨cf, hfind⟩ | ⟨hmissing, hplatform⟩
  · rw [hfind]
    simp only [declarations_eq_ok htype]
    exact congrArg Except.ok (List.append_nil _).symm
  · rw [hmissing]
    simp only [if_pos hplatform]
    rfl

/-! ### The search -/

/-- One step of the search: the first name that was not visited is visited. -/
theorem search_step {s : Search} (hcoherent : s.classPath.Coherent t) {name : String}
    {queue : List String} (hdrop : s.queue.dropWhile s.visited.contains = name :: queue)
    (start : String) (fuel : Nat) :
    ∃ cp : ClassPath, cp.roots = s.classPath.roots ∧ cp.Coherent t ∧
      search t start method descriptor (fuel + 1) s =
        match visitResult t s.classPath.roots start method descriptor name with
        | .error e => (.error e, cp)
        | .ok found => search t start method descriptor fuel
          ⟨cp, s.visited.insert name, queue ++ supertypesOf t s.classPath.roots name,
            s.found ++ found⟩ := by
  obtain ⟨cp, hload, hroots, hcp⟩ := load_spec hcoherent name
  refine ⟨cp, hroots, hcp, ?_⟩
  rw [search, hdrop]
  simp only [hload]
  unfold visitResult supertypesOf
  cases find t name s.classPath.roots with
  | ok cf =>
    cases hdeclared : declarations cf method descriptor with
    | error e => simp only [hdeclared, Except.mapError]
    | ok found => simp only [hdeclared, Except.mapError]
  | error e =>
    cases e with
    | classNotFound missing =>
      by_cases hplatform : ClassName.isPlatform name = true
      · simp only [if_pos hplatform, List.append_nil]
      · simp only [if_neg hplatform]
    | _ => rfl

theorem search_end {s : Search} (hdrop : s.queue.dropWhile s.visited.contains = [])
    (start : String) (fuel : Nat) :
    search t start method descriptor fuel s = (.ok s.found, s.classPath) := by
  cases fuel with
  | zero => rw [search]
  | succ fuel => rw [search, hdrop]

/-- What a visit leads to. -/
inductive Turn where
  | next (s : Search)
  | done (result : Except Failure (List CallTarget)) (classPath : ClassPath)

/-- The search goes on as a function says. -/
def Turn.andThen (f : Search → Except Failure (List CallTarget) × ClassPath) :
    Turn → Except Failure (List CallTarget) × ClassPath
  | next s => f s
  | done result classPath => (result, classPath)

/-- One visit of a search, with the rest of the queue. -/
def visit (t : FileTree) (start method descriptor : String) (s : Search) (name : String)
    (queue : List String) : Turn :=
  let visited := s.visited.insert name
  match s.classPath.load t name with
  | (.ok cf, classPath) =>
    match declarations cf method descriptor with
    | .error e => .done (.error (.descriptor e)) classPath
    | .ok found => .next ⟨classPath, visited, queue ++ cf.supertypes, s.found ++ found⟩
  | (.error (.classNotFound missing), classPath) =>
    if ClassName.isPlatform name then .next ⟨classPath, visited, queue, s.found⟩
    else .done (.error (.within ("hierarchy: supertype of " ++ start) (.classNotFound missing)))
      classPath
  | (.error e, classPath) =>
    .done (.error (.within ("hierarchy: supertype of " ++ start) e)) classPath

/-- With fuel for a visit, the search makes it and goes on. -/
theorem search_visit {s : Search} {name : String} {queue : List String}
    (hdrop : s.queue.dropWhile s.visited.contains = name :: queue) (start : String) (fuel : Nat) :
    search t start method descriptor (fuel + 1) s =
      (visit t start method descriptor s name queue).andThen
        (search t start method descriptor fuel) := by
  rw [search, hdrop]
  unfold visit
  dsimp only
  cases s.classPath.load t name with
  | mk r cp =>
    cases r with
    | ok cf =>
      dsimp only
      cases declarations cf method descriptor with
      | error e => rfl
      | ok found => rfl
    | error e =>
      cases e with
      | classNotFound missing =>
        dsimp only
        split
        · rfl
        · rfl
      | _ => rfl

/-- A visit loads the name. Then the search is done, or it goes on with the supertypes of the class
    behind the rest of the queue, or with the rest alone if a class is missing. -/
theorem visit_cases (t : FileTree) (start method descriptor : String) (s : Search) (name : String)
    (queue : List String) :
    (∃ result, visit t start method descriptor s name queue =
      .done result (s.classPath.load t name).2) ∨
    ∃ queue' found, visit t start method descriptor s name queue =
        .next ⟨(s.classPath.load t name).2, s.visited.insert name, queue', found⟩ ∧
      (queue' = queue ∨
        ∃ cf, (s.classPath.load t name).1 = .ok cf ∧ queue' = queue ++ cf.supertypes) := by
  unfold visit
  dsimp only
  cases s.classPath.load t name with
  | mk r cp =>
    cases r with
    | ok cf =>
      dsimp only
      cases declarations cf method descriptor with
      | error e => exact .inl ⟨_, rfl⟩
      | ok found => exact .inr ⟨_, _, rfl, .inr ⟨cf, rfl, rfl⟩⟩
    | error e =>
      cases e with
      | classNotFound missing =>
        dsimp only
        split
        · exact .inr ⟨_, _, rfl, .inl rfl⟩
        · exact .inl ⟨_, rfl⟩
      | _ => exact .inl ⟨_, rfl⟩

theorem search_keeps {p : ClassPath → Prop} (hload : ∀ cp name, p cp → p (cp.load t name).2)
    {s : Search} (hs : p s.classPath) (start : String) (fuel : Nat) :
    p (search t start method descriptor fuel s).2 := by
  induction fuel generalizing s with
  | zero => exact hs
  | succ fuel ih =>
    cases hdrop : s.queue.dropWhile s.visited.contains with
    | nil =>
      rw [search_end hdrop]
      exact hs
    | cons name queue =>
      have hafter := hload s.classPath name hs
      rw [search_visit hdrop]
      rcases visit_cases t start method descriptor s name queue with
        ⟨result, hdone⟩ | ⟨queue', found, hnext, -⟩
      · rw [hdone]
        exact hafter
      · rw [hnext]
        exact ih hafter

theorem overrides_keeps {p : ClassPath → Prop} (hload : ∀ cp name, p cp → p (cp.load t name).2)
    {cp : ClassPath} (hcp : p cp) (className method descriptor : String) :
    p (cp.overrides t className method descriptor).2 := by
  have hafter := hload cp (ClassName.internal className) hcp
  unfold overrides
  revert hafter
  cases cp.load t (ClassName.internal className) with
  | mk r cp' =>
    intro hafter
    cases r with
    | error e => exact hafter
    | ok start => exact search_keeps hload hafter start.name _

theorem contains_insert_eq {visited : Std.HashSet String} {seen : List String}
    (hseen : ∀ name, visited.contains name = decide (name ∈ seen)) (name other : String) :
    (visited.insert name).contains other = decide (other ∈ name :: seen) := by
  rw [Std.HashSet.contains_insert, hseen]
  by_cases h : name = other
  · simp [h]
  · simp [h, Ne.symm h]

theorem contains_singleton_eq (name other : String) :
    ({name} : Std.HashSet String).contains other = decide (other ∈ [name]) := by
  rw [Std.HashSet.singleton_eq_insert]
  exact contains_insert_eq (fun _ => Std.HashSet.contains_empty) name other

/-- The search is a traversal that collects what its visits give. -/
theorem search_eq {s : Search} (hcoherent : s.classPath.Coherent t) {seen : List String}
    (hseen : ∀ name, s.visited.contains name = decide (name ∈ seen)) (start : String) (fuel : Nat) :
    (search t start method descriptor fuel s).1 =
      ((Traversal.visit (supertypesOf t s.classPath.roots) fuel seen s.queue).mapM
        (visitResult t s.classPath.roots start method descriptor)).map (s.found ++ ·.flatten) := by
  induction fuel generalizing s seen with
  | zero =>
    rw [search, Traversal.visit, List.mapM_nil]
    exact congrArg Except.ok (List.append_nil _).symm
  | succ fuel ih =>
    have hsame : s.queue.dropWhile s.visited.contains = s.queue.dropWhile (· ∈ seen) :=
      congrArg (List.dropWhile · s.queue) (funext hseen)
    rw [Traversal.visit]
    cases hdrop : s.queue.dropWhile (· ∈ seen) with
    | nil =>
      rw [search_end (hsame.trans hdrop)]
      exact congrArg Except.ok (List.append_nil _).symm
    | cons name queue =>
      obtain ⟨cp, hroots, hcp, hstep⟩ := search_step hcoherent (hsame.trans hdrop) start fuel
      rw [hstep, List.mapM_cons]
      cases visitResult t s.classPath.roots start method descriptor name with
      | error e => rfl
      | ok found =>
        have hrest := @ih ⟨cp, s.visited.insert name,
          queue ++ supertypesOf t s.classPath.roots name, s.found ++ found⟩ hcp _
          (contains_insert_eq hseen name)
        rw [hrest]
        simp only [hroots]
        cases (Traversal.visit (supertypesOf t s.classPath.roots) fuel (name :: seen)
          (queue ++ supertypesOf t s.classPath.roots name)).mapM
          (visitResult t s.classPath.roots start method descriptor) with
        | error e => rfl
        | ok results => exact congrArg Except.ok (List.append_assoc _ _ _)

/-! ### Class paths in use -/

/-- A class path as programs have it: a new one, or one that is left when a class has been loaded or
    overridden methods have been searched. -/
inductive Opened (t : FileTree) : ClassPath → Prop where
  | new {size : Int} {paths : List Path} {cp : ClassPath} :
      ofRoots t size paths = .ok cp → Opened t cp
  | load {cp : ClassPath} (name : String) : Opened t cp → Opened t (cp.load t name).2
  | overrides {cp : ClassPath} (className method descriptor : String) :
      Opened t cp → Opened t (cp.overrides t className method descriptor).2

/-- Whatever has been loaded before, the cache holds what is found without it. -/
theorem Opened.coherent {cp : ClassPath} (h : Opened t cp) : cp.Coherent t := by
  induction h with
  | new hnew => exact coherent_ofRoots hnew
  | load name _ ih => exact coherent_load ih name
  | overrides className method descriptor _ ih =>
    exact overrides_keeps (p := Coherent t) (fun _ name hcp => coherent_load hcp name) ih _ _ _

/-! ### All supertypes -/

/-- The supertypes are visited in the order of their distance, each once, and what the visits give
    is put together. -/
theorem overrides_traversal {cp : ClassPath} (hcoherent : cp.Coherent t) {className : String}
    {start : ClassFile} (hstart : find t (ClassName.internal className) cp.roots = .ok start)
    (hname : start.name = ClassName.internal className) (method descriptor : String) :
    ∃ names : List String, names.Nodup ∧
      (∀ name, name ∈ names ↔ name ≠ start.name ∧ Reaches t cp.roots start.name name) ∧
      names.Pairwise (fun a b => distance (Supertype t cp.roots) start.name a ≤
        distance (Supertype t cp.roots) start.name b) ∧
      (cp.overrides t className method descriptor).1 =
        (names.mapM (visitResult t cp.roots start.name method descriptor)).map List.flatten := by
  obtain ⟨cp', hload, hroots, hcp'⟩ := load_spec hcoherent (ClassName.internal className)
  -- The names that classes refer to are all that can be visited, and the fuel is for as many.
  have hnext : ∀ a, ∀ b ∈ supertypesOf t cp.roots a, b ∈ referredNames t cp.roots := by
    intro a b hb
    unfold supertypesOf at hb
    split at hb
    · next cf hfind => exact mem_referredNames hfind hb
    · nomatch hb
  have hfuel : (referredNames t cp.roots).length ≤ cp'.nameLimit t + 2 := by
    have hlimit := length_referredNames_le t cp'
    rw [hroots] at hlimit
    omega
  have hspec := Traversal.visit_spec hnext hfuel start.name
  rw [succ_supertypesOf] at hspec
  refine ⟨_, hspec.1, hspec.2.1, hspec.2.2, ?_⟩
  have hsearch := @search_eq t method descriptor ⟨cp', {start.name}, start.supertypes, []⟩ hcp' _
    (contains_singleton_eq start.name) start.name (cp'.nameLimit t + 2)
  simp only [hroots, List.nil_append] at hsearch
  have hsupertypes : supertypesOf t cp.roots start.name = start.supertypes :=
    supertypesOf_eq (hname ▸ hstart)
  rw [overrides, hload, hstart, hsupertypes]
  exact hsearch

theorem nearestFirst_classes {start : String} {names : List String} (hnodup : names.Nodup)
    (hmem : ∀ name, name ∈ names ↔ name ≠ start ∧ Reaches t roots start name)
    (hordered : names.Pairwise fun a b =>
      distance (Supertype t roots) start a ≤ distance (Supertype t roots) start b)
    (hnames : ∀ name cf, Reaches t roots start name → find t name roots = .ok cf → cf.name = name) :
    NearestFirst t roots start (names.filterMap fun name => (find t name roots).toOption) := by
  have hclass : ∀ name ∈ names, ∀ cf, (find t name roots).toOption = some cf →
      find t name roots = .ok cf ∧ cf.name = name := by
    intro name hname cf hcf
    have hfind : find t name roots = .ok cf := by
      cases h : find t name roots with
      | error e =>
        rw [h] at hcf
        nomatch hcf
      | ok cf' =>
        rw [h] at hcf
        rw [Option.some.inj hcf]
    exact ⟨hfind, hnames name cf ((hmem name).mp hname).2 hfind⟩
  constructor
  · rw [List.Nodup, List.pairwise_map, List.pairwise_filterMap]
    refine hnodup.imp_of_mem fun ha hb hne cf hcf cf' hcf' => ?_
    rw [(hclass _ ha cf hcf).2, (hclass _ hb cf' hcf').2]
    exact hne
  · intro cf
    rw [List.mem_filterMap]
    constructor
    · rintro ⟨name, hname, hcf⟩
      obtain ⟨hfind, rfl⟩ := hclass name hname cf hcf
      obtain ⟨hne, hreach⟩ := (hmem cf.name).mp hname
      exact ⟨hne, hreach, hfind⟩
    · rintro ⟨hne, hreach, hfind⟩
      exact ⟨cf.name, (hmem cf.name).mpr ⟨hne, hreach⟩, by rw [hfind]; rfl⟩
  · rw [List.pairwise_filterMap]
    refine hordered.imp_of_mem fun ha hb hle cf hcf cf' hcf' => ?_
    rw [(hclass _ ha cf hcf).2, (hclass _ hb cf' hcf').2]
    exact hle

/-- **The search for overridden methods is exact.** From a class whose supertypes are all found, or
    missing and of the platform, it gives the declarations in all classes that are reached, each
    once, the nearer ones first. If there is another supertype, it fails. -/
theorem overrides_exact {cp : ClassPath} (hopened : Opened t cp) {className : String}
    {start : ClassFile} (hstart : find t (ClassName.internal className) cp.roots = .ok start)
    (hnames : ∀ name cf, Reaches t cp.roots (ClassName.internal className) name →
      find t name cp.roots = .ok cf → cf.name = name) (method descriptor : String) :
    ((∀ name, Reaches t cp.roots start.name name → Resolved t cp.roots name) →
      ∀ type, Descriptor.parseMethod descriptor = .ok type →
        ∃ classes, NearestFirst t cp.roots start.name classes ∧
          (cp.overrides t className method descriptor).1 =
            .ok (classes.flatMap (targets method descriptor type))) ∧
    ((∃ name, Reaches t cp.roots start.name name ∧ ¬ Resolved t cp.roots name) →
      ∃ e, (cp.overrides t className method descriptor).1 = .error e) := by
  have hname : start.name = ClassName.internal className := hnames _ _ ⟨0, .refl⟩ hstart
  rw [← hname] at hnames
  obtain ⟨names, hnodup, hmem, hordered, hresult⟩ :=
    overrides_traversal hopened.coherent hstart hname method descriptor
  constructor
  · intro hresolved type htype
    refine ⟨_, nearestFirst_classes hnodup hmem hordered hnames, ?_⟩
    have hvisit : ∀ name ∈ names, visitResult t cp.roots start.name method descriptor name =
        .ok ((find t name cp.roots).toOption.toList.flatMap (targets method descriptor type)) :=
      fun name hname => visitResult_of_resolved htype (hresolved name ((hmem name).mp hname).2)
    rw [hresult, mapM_eq_ok hvisit, List.filterMap_eq_flatMap_toList, List.flatMap_assoc]
    exact congrArg Except.ok List.flatMap_def.symm
  · rintro ⟨name, hreach, hnot⟩
    have hne : name ≠ start.name := by
      rintro rfl
      exact hnot (.inl ⟨start, hname ▸ hstart⟩)
    obtain ⟨e, he⟩ := @visitResult_of_not_resolved t cp.roots method descriptor start.name name hnot
    obtain ⟨e', he'⟩ := mapM_eq_error ((hmem name).mpr ⟨hne, hreach⟩) he
    rw [hresult, he']
    exact ⟨e', rfl⟩

/-- A class with a superclass, an interface and a method `run`. -/
def sampleBytes (name superName interface : String) : List UInt8 :=
  [0xca, 0xfe, 0xba, 0xbe, 0, 0, 0, 52, 0, 9] ++ text name ++ [7, 0, 1] ++ text superName ++
    [7, 0, 3] ++ text interface ++ [7, 0, 5] ++ text "run" ++ text "()V" ++
    [0, 1, 0, 2, 0, 4, 0, 1, 0, 6, 0, 0, 0, 1, 0, 1, 0, 7, 0, 8, 0, 0, 0, 0]
where
  /-- A constant of a short text. -/
  text (s : String) : List UInt8 :=
    1 :: 0 :: s.length.toUInt8 :: s.toList.map fun c => c.toNat.toUInt8

/-- A class `p/A` that reaches `p/B` in two ways and leads back to itself, and a class `p/E` with a
    missing superclass. -/
def sampleTree : FileTree where
  root := [("p", .directory [("A.class", .file 0), ("B.class", .file 1), ("C.class", .file 2),
    ("E.class", .file 3)])]
  contents := #[(sampleBytes "p/A" "p/B" "p/C").toByteArray,
    (sampleBytes "p/B" "java/lang/Object" "p/A").toByteArray,
    (sampleBytes "p/C" "java/lang/Object" "p/B").toByteArray,
    (sampleBytes "p/E" "p/Gone" "p/A").toByteArray]
  current := []

def samplePath : ClassPath :=
  ⟨[.directory "."], .empty 16⟩

def sampleReached : List String :=
  ["p/A", "p/B", "p/C", "java/lang/Object"]

def sampleNames : List String :=
  sampleReached ++ ["p/E", "p/Gone"]

/-- What the files of the sample say. -/
theorem sample_facts :
    (∀ a ∈ sampleNames, (∀ b ∈ supertypesOf sampleTree samplePath.roots a, b ∈ sampleNames) ∧
      ∀ cf ∈ (find sampleTree a samplePath.roots).toOption.toList, cf.name = a) ∧
    (∀ a ∈ sampleReached, (∀ b ∈ supertypesOf sampleTree samplePath.roots a, b ∈ sampleReached) ∧
      Resolved sampleTree samplePath.roots a) ∧
    "p/B" ∈ supertypesOf sampleTree samplePath.roots "p/A" ∧
    "p/Gone" ∈ supertypesOf sampleTree samplePath.roots "p/E" ∧
    ¬ Resolved sampleTree samplePath.roots "p/Gone" := by
  decide +kernel

/-- Where the root is the working directory, the dot stands for it, whatever the files hold. -/
theorem stat_here (root : Directory) (contents : Array ByteArray) :
    FileTree.stat ⟨root, contents, []⟩ "." = .ok (.directory root) := by
  have hdot : ByteString.ofString "." = ⟨[0x2e]⟩ := by decide +kernel
  rw [hdot]
  rfl

theorem opened_here (root : Directory) (contents : Array ByteArray) :
    ofRoots ⟨root, contents, []⟩ 16 ["."] = .ok samplePath := by
  have hroot : ClassRoot.ofPath ⟨root, contents, []⟩ "." = .ok (.directory ".") := by
    unfold ClassRoot.ofPath
    rw [stat_here]
  simp [ofRoots, hroot, samplePath]

theorem opened_sample : ofRoots sampleTree 16 ["."] = .ok samplePath :=
  opened_here _ _

theorem sample_carries {start : String} (hstart : start ∈ sampleNames) (name : String)
    (cf : ClassFile) (hreach : Reaches sampleTree samplePath.roots start name)
    (hfind : find sampleTree name samplePath.roots = .ok cf) : cf.name = name := by
  have hmem := mem_of_reaches (fun a ha => (sample_facts.1 a ha).1) hstart hreach
  apply (sample_facts.1 name hmem).2
  rw [hfind]
  exact List.mem_cons_self

theorem overrides_exact_sample :
    (∃ type classes, Descriptor.parseMethod "()V" = .ok type ∧
      NearestFirst sampleTree samplePath.roots "p/A" classes ∧
      (samplePath.overrides sampleTree "p.A" "run" "()V").1 =
        .ok (classes.flatMap (targets "run" "()V" type))) ∧
    ∃ e, (samplePath.overrides sampleTree "p.E" "run" "()V").1 = .error e := by
  obtain ⟨-, hresolved, hsuper, hgone, hmissing⟩ := sample_facts
  have hopened : Opened sampleTree samplePath := .new opened_sample
  constructor
  · obtain ⟨start, hstart⟩ := exists_class_of_mem hsuper
    have hcarries := sample_carries (by decide : ClassName.internal "p.A" ∈ sampleNames)
    obtain ⟨hsuccess, -⟩ :=
      @overrides_exact sampleTree samplePath hopened "p.A" start hstart hcarries "run" "()V"
    have hname : start.name = "p/A" := hcarries _ _ ⟨0, .refl⟩ hstart
    rw [hname] at hsuccess
    have hreached : ∀ name, Reaches sampleTree samplePath.roots "p/A" name →
        Resolved sampleTree samplePath.roots name := by
      intro name hreach
      exact (hresolved name
        (mem_of_reaches (fun a ha => (hresolved a ha).1) (by decide) hreach)).2
    have hok : (Descriptor.parseMethod "()V").isOk = true := by decide +kernel
    cases htype : Descriptor.parseMethod "()V" with
    | error e =>
      rw [htype] at hok
      nomatch hok
    | ok type =>
      obtain ⟨classes, hclasses, hresult⟩ := hsuccess hreached type htype
      exact ⟨type, classes, rfl, hclasses, hresult⟩
  · obtain ⟨start, hstart⟩ := exists_class_of_mem hgone
    have hcarries := sample_carries (by decide : ClassName.internal "p.E" ∈ sampleNames)
    obtain ⟨-, hfailure⟩ :=
      @overrides_exact sampleTree samplePath hopened "p.E" start hstart hcarries "run" "()V"
    have hname : start.name = "p/E" := hcarries _ _ ⟨0, .refl⟩ hstart
    rw [hname] at hfailure
    exact hfailure ⟨"p/Gone", ⟨1, .step .refl (mem_supertypesOf_iff.mp hgone)⟩, hmissing⟩

end ClassPath

end ClassAudit
