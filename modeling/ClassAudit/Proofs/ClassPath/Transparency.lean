import Mathlib.Data.List.TakeWhile
import ClassAudit.Proofs.ClassPath.Overrides

/-! # The cache cannot be seen

    Whatever a cache forgets and whenever it does so, a class path answers as it would without a
    cache. All that has to be known of the cache is that it gives nothing for a name, or the value
    that was last added under it (`CacheBehaviour.Lawful`). The cache that drops what was not asked
    for longest is one of these, whatever its size.

    A call reaches the cache only by loading classes, one after the other. So it is enough to know
    what a single load does (`Faithful`), and that a search for overridden methods goes the same way
    when each load gives the same.
-/

namespace ClassAudit

/-! ### Caches that may forget -/

/-- A cache as its users see it. It may forget a value whenever it is asked for something or given
    something. -/
structure CacheBehaviour (α : Type) where
  State : Type
  start : State
  get : State → String → Option α × State
  add : State → String → α → State

namespace CacheBehaviour

variable {α : Type}

/-- A state that some requests lead to, and the value that was last added under each name. -/
inductive Reached (c : CacheBehaviour α) : c.State → (String → Option α) → Prop where
  | start : Reached c c.start fun _ => none
  | get {s : c.State} {last : String → Option α} (name : String) :
      Reached c s last → Reached c (c.get s name).2 last
  | add {s : c.State} {last : String → Option α} (name : String) (a : α) :
      Reached c s last → Reached c (c.add s name a) (Function.update last name (some a))

/-- For a name the cache gives nothing, or the value that was last added under it. -/
def Lawful (c : CacheBehaviour α) : Prop :=
  ∀ s last, c.Reached s last → ∀ name a, (c.get s name).1 = some a → last name = some a

/-- The bounded cache that keeps what was asked for or added last. -/
def bounded (α : Type) (size : Nat) : CacheBehaviour α where
  State := Cache α
  start := .empty size
  get c name :=
    match c.get? name with
    | some (a, c') => (some a, c')
    | none => (none, c)
  add := Cache.add

/-- What a bounded cache holds was last added under its name. -/
theorem lookup_bounded {size : Nat} {c : (bounded α size).State} {last : String → Option α}
    (h : (bounded α size).Reached c last) :
    ∀ name a, (Cache.entries c).lookup name = some a → last name = some a := by
  induction h with
  | start =>
    intro name a hlookup
    nomatch hlookup
  | @get c last name _ ih =>
    intro other a hlookup
    simp only [bounded, Cache.get?] at hlookup
    cases hname : (Cache.entries c).lookup name with
    | none =>
      simp only [hname] at hlookup
      exact ih other a hlookup
    | some b =>
      simp only [hname] at hlookup
      rw [Cache.lookup_renewed] at hlookup
      by_cases h : other = name
      · rw [if_pos h] at hlookup
        rw [h, ← Option.some.inj hlookup]
        exact ih name b hname
      · rw [if_neg h] at hlookup
        exact ih other a hlookup
  | @add c last name b _ ih =>
    intro other a hlookup
    -- What was dropped does not matter, the rest is as it was added.
    have hkept := Cache.lookup_of_take hlookup
    rw [Cache.lookup_renewed] at hkept
    by_cases h : other = name
    · rw [if_pos h] at hkept
      rw [h, Function.update_self]
      exact hkept
    · rw [if_neg h] at hkept
      rw [Function.update_of_ne h]
      exact ih other a hkept

theorem lawful_bounded (α : Type) (size : Nat) : (bounded α size).Lawful := by
  intro c last hreached name a hget
  refine lookup_bounded hreached name a ?_
  simp only [bounded, Cache.get?] at hget
  cases hname : (Cache.entries c).lookup name with
  | none =>
    simp only [hname] at hget
    nomatch hget
  | some b =>
    simp only [hname] at hget
    exact hget

end CacheBehaviour

/-! ### Fuel of a traversal -/

/-- A traversal with enough fuel for the nodes that are left is not changed by more of it. -/
theorem Traversal.visit_of_enough {α : Type} [DecidableEq α] {next : α → List α} {nodes : List α}
    (hnext : ∀ a, ∀ b ∈ next a, b ∈ nodes) {fuel fuel' : Nat} {seen queue : List α}
    (hqueue : ∀ a ∈ queue, a ∈ nodes) (hfuel : (nodes.filter (· ∉ seen)).length ≤ fuel)
    (hle : fuel ≤ fuel') : visit next fuel' seen queue = visit next fuel seen queue := by
  induction fuel generalizing fuel' seen queue with
  | zero =>
    -- Nothing is left, so the queue holds only what was seen.
    have hseen : ∀ a ∈ nodes, a ∈ seen := by
      have hnil := List.eq_nil_of_length_eq_zero (Nat.le_zero.mp hfuel)
      simpa using List.filter_eq_nil_iff.mp hnil
    have hdrop : queue.dropWhile (· ∈ seen) = [] := by
      rw [List.dropWhile_eq_nil_iff]
      intro a ha
      exact decide_eq_true (hseen a (hqueue a ha))
    cases fuel' with
    | zero => rfl
    | succ fuel' => simp only [visit, hdrop]
  | succ fuel ih =>
    obtain ⟨fuel', rfl⟩ : ∃ n, fuel' = n + 1 := ⟨fuel' - 1, by omega⟩
    rw [visit, visit]
    cases hdrop : queue.dropWhile (· ∈ seen) with
    | nil => rfl
    | cons a rest =>
      have hsub : ∀ b ∈ a :: rest, b ∈ nodes := by
        intro b hb
        rw [← hdrop] at hb
        exact hqueue b (List.dropWhile_subset _ hb)
      have hless := length_left_lt (hsub a List.mem_cons_self) (not_mem_of_dropWhile hdrop)
      have hrest : ∀ b ∈ rest ++ next a, b ∈ nodes := by
        intro b hb
        rcases List.mem_append.mp hb with hb | hb
        · exact hsub b (List.mem_cons_of_mem a hb)
        · exact hnext a b hb
      have hmore : visit next fuel' (a :: seen) (rest ++ next a) =
          visit next fuel (a :: seen) (rest ++ next a) := ih hrest (by omega) (by omega)
      simp only [hmore]

namespace ClassPath

/-! ### Loading in one way or another -/

/-- A way to load classes by their names. -/
abbrev Loader (σ : Type) := σ → String → Except Failure ClassFile × σ

def uncached (t : FileTree) (roots : List ClassRoot) : Loader Unit := fun _ name =>
  (find t name roots, ())

def through (c : CacheBehaviour ClassFile) (t : FileTree) (roots : List ClassRoot) :
    Loader c.State := fun s name =>
  match c.get s name with
  | (some cf, s) => (.ok cf, s)
  | (none, s) =>
    match find t name roots with
    | .ok cf => (.ok cf, c.add s name cf)
    | .error e => (.error e, s)

/-- From a state of the invariant a load gives what is found without a cache, and leads to such a
    state again. -/
def Faithful {σ : Type} (t : FileTree) (roots : List ClassRoot) (load : Loader σ)
    (inv : σ → Prop) : Prop :=
  ∀ s name, inv s → (load s name).1 = find t name roots ∧ inv (load s name).2

/-- The values that were added last are what is found without a cache. -/
def Sound (t : FileTree) (roots : List ClassRoot) (c : CacheBehaviour ClassFile) (s : c.State) :
    Prop :=
  ∃ last, c.Reached s last ∧ ∀ name cf, last name = some cf → find t name roots = .ok cf

/-- A hit gives what was added, and only what was found is added. -/
theorem faithful_through {c : CacheBehaviour ClassFile} (hc : c.Lawful) (t : FileTree)
    (roots : List ClassRoot) : Faithful t roots (through c t roots) (Sound t roots c) := by
  intro s name ⟨last, hreached, hlast⟩
  have hafter := hreached.get name
  have hlaw := hc s last hreached name
  unfold through
  cases hget : c.get s name with
  | mk given s' =>
    rw [hget] at hafter hlaw
    cases given with
    | some cf => exact ⟨(hlast name cf (hlaw cf rfl)).symm, last, hafter, hlast⟩
    | none =>
      cases hfind : find t name roots with
      | error e => exact ⟨rfl, last, hafter, hlast⟩
      | ok cf =>
        refine ⟨rfl, _, hafter.add name cf, ?_⟩
        intro other cf' hother
        by_cases h : other = name
        · rw [h, Function.update_self] at hother
          rw [h, ← Option.some.inj hother]
          exact hfind
        · rw [Function.update_of_ne h] at hother
          exact hlast other cf' hother

theorem faithful_load (t : FileTree) (roots : List ClassRoot) :
    Faithful t roots (load t) fun cp => cp.roots = roots ∧ cp.Coherent t := by
  intro cp name ⟨hroots, hcoherent⟩
  obtain ⟨cp', hload, hroots', hcp'⟩ := load_spec hcoherent name
  rw [hload, hroots]
  exact ⟨rfl, hroots'.trans hroots, hcp'⟩

/-! ### Searching in one way or another -/

/-- What a search for overridden methods keeps, where classes are loaded in some way. -/
structure Visits (σ : Type) where
  loader : σ
  visited : Std.HashSet String
  queue : List String
  found : List CallTarget

/-- The search for overridden methods, where classes are loaded in some way. -/
def searchWith {σ : Type} (load : Loader σ) (start method descriptor : String) :
    Nat → Visits σ → Except Failure (List CallTarget) × σ
  | 0, v => (.ok v.found, v.loader)
  | fuel + 1, v =>
    match v.queue.dropWhile v.visited.contains with
    | [] => (.ok v.found, v.loader)
    | name :: queue =>
      match load v.loader name with
      | (.ok cf, s) =>
        match declarations cf method descriptor with
        | .error e => (.error (.descriptor e), s)
        | .ok found =>
          searchWith load start method descriptor fuel
            ⟨s, v.visited.insert name, queue ++ cf.supertypes, v.found ++ found⟩
      | (.error (.classNotFound missing), s) =>
        if ClassName.isPlatform name then
          searchWith load start method descriptor fuel
            ⟨s, v.visited.insert name, queue, v.found⟩
        else (.error (.within ("hierarchy: supertype of " ++ start) (.classNotFound missing)), s)
      | (.error e, s) => (.error (.within ("hierarchy: supertype of " ++ start) e), s)

/-- The methods that a method of a class overrides, where classes are loaded in some way. -/
def overridesWith {σ : Type} (load : Loader σ) (limit : σ → Nat) (s : σ)
    (className method descriptor : String) : Except Failure (List CallTarget) × σ :=
  match load s (ClassName.internal className) with
  | (.error e, s) => (.error e, s)
  | (.ok start, s) =>
    searchWith load start.name method descriptor (limit s) ⟨s, {start.name}, start.supertypes, []⟩

theorem search_eq_searchWith (t : FileTree) (start method descriptor : String) (fuel : Nat)
    (s : Search) : search t start method descriptor fuel s =
      searchWith (load t) start method descriptor fuel
        ⟨s.classPath, s.visited, s.queue, s.found⟩ := by
  induction fuel generalizing s with
  | zero => rfl
  | succ fuel ih =>
    rw [search, searchWith]
    cases s.queue.dropWhile s.visited.contains with
    | nil => rfl
    | cons name queue =>
      simp only [ih]
      cases s.classPath.load t name with
      | mk r cp =>
        cases r with
        | ok cf => rfl
        | error e => cases e <;> rfl

/-- The search of a class path is the one that loads classes as the class path does. -/
theorem overrides_eq_overridesWith (t : FileTree) (cp : ClassPath)
    (className method descriptor : String) : cp.overrides t className method descriptor =
      overridesWith (load t) (fun cp => cp.nameLimit t + 2) cp className method descriptor := by
  unfold overrides overridesWith
  cases cp.load t (ClassName.internal className) with
  | mk r cp' =>
    cases r with
    | error e => rfl
    | ok start => exact search_eq_searchWith t _ _ _ _ _

theorem searchWith_of_faithful {σ : Type} {t : FileTree} {roots : List ClassRoot}
    {load : Loader σ} {inv : σ → Prop} (h : Faithful t roots load inv)
    (start method descriptor : String) (fuel : Nat) {v : Visits σ} (hv : inv v.loader) :
    (searchWith load start method descriptor fuel v).1 =
      (searchWith (uncached t roots) start method descriptor fuel
        ⟨(), v.visited, v.queue, v.found⟩).1 ∧
    inv (searchWith load start method descriptor fuel v).2 := by
  induction fuel generalizing v with
  | zero => exact ⟨rfl, hv⟩
  | succ fuel ih =>
    rw [searchWith, searchWith]
    cases v.queue.dropWhile v.visited.contains with
    | nil => exact ⟨rfl, hv⟩
    | cons name queue =>
      obtain ⟨hresult, hafter⟩ := h v.loader name hv
      simp only [show uncached t roots () name = (find t name roots, ()) from rfl]
      cases hload : load v.loader name with
      | mk r s =>
        rw [hload] at hresult hafter
        rw [← hresult]
        cases r with
        | ok cf =>
          simp only
          cases declarations cf method descriptor with
          | error e => exact ⟨rfl, hafter⟩
          | ok found => exact ih hafter
        | error e =>
          cases e with
          | classNotFound missing =>
            by_cases hplatform : ClassName.isPlatform name = true
            · simp only [if_pos hplatform]
              exact ih hafter
            · simpa only [if_neg hplatform, true_and] using hafter
          | _ => exact ⟨rfl, hafter⟩

/-- Names enough for all that the classes of some roots refer to. -/
def limit (t : FileTree) (roots : List ClassRoot) : Nat :=
  nameLimit t ⟨roots, .empty 0⟩ + 2

theorem limit_le (t : FileTree) (cp : ClassPath) : limit t cp.roots ≤ cp.nameLimit t + 2 := by
  have hsize : supertypeLimit * (t.contents.size +
      cp.roots.foldr (fun root total => root.entryCount + total) 0 + 0) ≤ cp.nameLimit t :=
    Nat.mul_le_mul_left _ (by omega)
  exact Nat.add_le_add_right hsize 2

/-- A search without a cache is the same for each fuel that is enough. -/
theorem searchWith_uncached_of_enough {t : FileTree} {roots : List ClassRoot} {start : ClassFile}
    {name : String} (hstart : find t name roots = .ok start) (method descriptor : String)
    {fuel : Nat} (hfuel : limit t roots ≤ fuel) :
    (searchWith (uncached t roots) start.name method descriptor fuel
      ⟨(), {start.name}, start.supertypes, []⟩).1 =
    (searchWith (uncached t roots) start.name method descriptor (limit t roots)
      ⟨(), {start.name}, start.supertypes, []⟩).1 := by
  -- Both are what a class path with an empty cache finds, and that is known as a traversal.
  have hempty : Coherent t ⟨roots, .empty 0⟩ := by
    intro other cf hlookup
    nomatch hlookup
  have hseen : ∀ other, ({start.name} : Std.HashSet String).contains other =
      decide (other ∈ [start.name]) := by
    intro other
    by_cases h : start.name = other
    · simp [h]
    · simp [h, Ne.symm h]
  have htraversal : ∀ n, (searchWith (uncached t roots) start.name method descriptor n
      ⟨(), {start.name}, start.supertypes, []⟩).1 =
      ((Traversal.visit (supertypesOf t roots) n [start.name] start.supertypes).mapM
        (visitResult t roots start.name method descriptor)).map ([] ++ ·.flatten) := by
    intro n
    have hsame := (searchWith_of_faithful (faithful_load t roots) start.name method descriptor n
      (v := ⟨⟨roots, .empty 0⟩, {start.name}, start.supertypes, []⟩) ⟨rfl, hempty⟩).1
    rw [← hsame, ← search_eq (s := ⟨⟨roots, .empty 0⟩, {start.name}, start.supertypes, []⟩) hempty
      hseen start.name n, search_eq_searchWith]
  have hnext : ∀ a, ∀ b ∈ supertypesOf t roots a, b ∈ referredNames t roots := by
    intro a b hb
    obtain ⟨cf, hfind⟩ := exists_class_of_mem hb
    rw [supertypesOf_eq hfind] at hb
    exact mem_referredNames hfind hb
  have hleft : ((referredNames t roots).filter (· ∉ [start.name])).length ≤ limit t roots := by
    have hnames : (referredNames t roots).length ≤ nameLimit t ⟨roots, .empty 0⟩ :=
      length_referredNames_le t ⟨roots, .empty 0⟩
    have hfilter := List.length_filter_le (· ∉ [start.name]) (referredNames t roots)
    unfold limit
    omega
  rw [htraversal, htraversal, Traversal.visit_of_enough hnext
    (fun b hb => mem_referredNames hstart hb) hleft hfuel]

/-! ### Calls -/

/-- What a class path can be asked for. -/
inductive Call where
  | load (name : String)
  | overrides (className method descriptor : String)

/-- What a class path answers. -/
inductive Answer where
  | loaded (r : Except Failure ClassFile)
  | overridden (r : Except Failure (List CallTarget))

/-- The answer of a class path to a call, and the class path after it. -/
def answer (t : FileTree) (cp : ClassPath) : Call → Answer × ClassPath
  | .load name =>
    let (r, cp) := cp.load t name
    (.loaded r, cp)
  | .overrides className method descriptor =>
    let (r, cp) := cp.overrides t className method descriptor
    (.overridden r, cp)

/-- The answers of a class path to calls, one after the other. -/
def answers (t : FileTree) : ClassPath → List Call → List Answer
  | _, [] => []
  | cp, call :: calls => (cp.answer t call).1 :: answers t (cp.answer t call).2 calls

/-- The answer to a call where classes are loaded in some way. -/
def answerWith {σ : Type} (load : Loader σ) (limit : σ → Nat) (s : σ) : Call → Answer × σ
  | .load name => (.loaded (load s name).1, (load s name).2)
  | .overrides className method descriptor =>
    let (r, s) := overridesWith load limit s className method descriptor
    (.overridden r, s)

/-- The answers to calls, one after the other, where classes are loaded in some way. -/
def answersWith {σ : Type} (load : Loader σ) (limit : σ → Nat) : σ → List Call → List Answer
  | _, [] => []
  | s, call :: calls =>
    (answerWith load limit s call).1 :: answersWith load limit (answerWith load limit s call).2 calls

def answerUncached (t : FileTree) (roots : List ClassRoot) (call : Call) : Answer :=
  (answerWith (uncached t roots) (fun _ => limit t roots) () call).1

theorem answers_eq_answersWith (t : FileTree) (cp : ClassPath) (calls : List Call) :
    cp.answers t calls = answersWith (load t) (fun cp => cp.nameLimit t + 2) cp calls := by
  induction calls generalizing cp with
  | nil => rfl
  | cons call calls ih =>
    have hcall : cp.answer t call =
        answerWith (load t) (fun cp => cp.nameLimit t + 2) cp call := by
      cases call with
      | load name => rfl
      | overrides className method descriptor =>
        rw [answer, answerWith, overrides_eq_overridesWith]
    rw [answers, answersWith, hcall, ih]

section

variable {σ : Type} {t : FileTree} {roots : List ClassRoot} {load : Loader σ} {inv : σ → Prop}
  (h : Faithful t roots load inv) {bound : σ → Nat}
  (hbound : ∀ s, inv s → limit t roots ≤ bound s) {s : σ} (hs : inv s)

include h hbound hs

/-- One call: the answer is that without a cache, and the invariant is kept. -/
theorem answerWith_of_faithful (call : Call) :
    (answerWith load bound s call).1 = answerUncached t roots call ∧
    inv (answerWith load bound s call).2 := by
  cases call with
  | load name =>
    obtain ⟨hresult, hafter⟩ := h s name hs
    exact ⟨congrArg Answer.loaded hresult, hafter⟩
  | overrides className method descriptor =>
    obtain ⟨hresult, hafter⟩ := h s (ClassName.internal className) hs
    simp only [answerUncached, answerWith, overridesWith, uncached]
    cases hload : load s (ClassName.internal className) with
    | mk r s' =>
      rw [hload] at hresult hafter
      cases r with
      | error e =>
        rw [← hresult]
        exact ⟨rfl, hafter⟩
      | ok start =>
        have hstart : find t (ClassName.internal className) roots = .ok start := hresult.symm
        obtain ⟨hsearch, hend⟩ := searchWith_of_faithful h start.name method descriptor (bound s')
          (v := ⟨s', {start.name}, start.supertypes, []⟩) hafter
        have hfuel :=
          searchWith_uncached_of_enough hstart method descriptor (hbound s' hafter)
        rw [hstart]
        exact ⟨congrArg Answer.overridden (hsearch.trans hfuel), hend⟩

theorem answersWith_of_faithful (calls : List Call) :
    answersWith load bound s calls = calls.map (answerUncached t roots) := by
  induction calls generalizing s with
  | nil => rfl
  | cons call calls ih =>
    obtain ⟨hanswer, hafter⟩ := answerWith_of_faithful h hbound hs call
    rw [answersWith, List.map_cons, hanswer, ih hafter]

end

/-! ### What is found without a cache -/

/-- The first root that holds a name decides what the name stands for. -/
inductive FirstHolder (t : FileTree) (name : String) (roots : List ClassRoot) :
    Except Failure ClassFile → Prop where
  | parsed {front back : List ClassRoot} {root : ClassRoot} {bytes : List UInt8} {cf : ClassFile} :
      roots = front ++ root :: back → (∀ r ∈ front, r.bytes t name = .ok none) →
      root.bytes t name = .ok (some bytes) → ClassFile.parse bytes = .ok cf →
      FirstHolder t name roots (.ok cf)
  | malformed {front back : List ClassRoot} {root : ClassRoot} {bytes : List UInt8}
      {e : Malformed} :
      roots = front ++ root :: back → (∀ r ∈ front, r.bytes t name = .ok none) →
      root.bytes t name = .ok (some bytes) → ClassFile.parse bytes = .error e →
      FirstHolder t name roots (.error (.classFile (root.classPath name).shown (.malformed e)))
  | unreadable {front back : List ClassRoot} {root : ClassRoot} {e : Failure} :
      roots = front ++ root :: back → (∀ r ∈ front, r.bytes t name = .ok none) →
      root.bytes t name = .error e →
      FirstHolder t name roots (.error (.classFile (root.classPath name).shown e))
  | missing : (∀ r ∈ roots, r.bytes t name = .ok none) →
      FirstHolder t name roots (.error (.classNotFound name))

/-- A root without the name does not matter. -/
theorem FirstHolder.cons {t : FileTree} {name : String} {root : ClassRoot}
    {roots : List ClassRoot} {r : Except Failure ClassFile}
    (hroot : root.bytes t name = .ok none) (h : FirstHolder t name roots r) :
    FirstHolder t name (root :: roots) r := by
  have hfront : ∀ front : List ClassRoot, (∀ r ∈ front, r.bytes t name = .ok none) →
      ∀ r ∈ root :: front, r.bytes t name = .ok none := by
    intro front h
    exact List.forall_mem_cons.mpr ⟨hroot, h⟩
  cases h with
  | parsed hroots hempty hbytes hparse =>
    exact .parsed (congrArg (root :: ·) hroots) (hfront _ hempty) hbytes hparse
  | malformed hroots hempty hbytes hparse =>
    exact .malformed (congrArg (root :: ·) hroots) (hfront _ hempty) hbytes hparse
  | unreadable hroots hempty hbytes =>
    exact .unreadable (congrArg (root :: ·) hroots) (hfront _ hempty) hbytes
  | missing hempty => exact .missing (hfront _ hempty)

theorem firstHolder_find (t : FileTree) (name : String) (roots : List ClassRoot) :
    FirstHolder t name roots (find t name roots) := by
  induction roots with
  | nil => exact .missing fun r hr => nomatch hr
  | cons root roots ih =>
    have hnone : ∀ r ∈ ([] : List ClassRoot), r.bytes t name = .ok none := fun r hr => nomatch hr
    rw [find]
    split
    · next e hbytes => exact .unreadable rfl hnone hbytes
    · next hbytes => exact ih.cons hbytes
    · next bytes hbytes =>
      split
      · next cf hparse => exact .parsed rfl hnone hbytes hparse
      · next e hparse => exact .malformed rfl hnone hbytes hparse

/-! ### Transparency -/

theorem ofRoots_eq_ok {t : FileTree} {size : Int} {paths : List Path} {roots : List ClassRoot}
    (hsize : 1 ≤ size) (hroots : paths.mapM (ClassRoot.ofPath t) = .ok roots) :
    ofRoots t size paths = .ok ⟨roots, .empty size.toNat⟩ := by
  have hnot : ¬ size < 1 := by omega
  simp only [ofRoots, if_neg hnot, hroots]
  rfl

/-- **The cache is transparent.** Calls one after the other are answered as without a cache, whatever
    a lawful cache forgets, and so by every class path that is opened with a cache of some size.
    Without a cache, the first root that holds a name decides. -/
theorem answers_transparent (t : FileTree) (calls : List Call) :
    (∀ (c : CacheBehaviour ClassFile) (roots : List ClassRoot), c.Lawful →
      answersWith (through c t roots) (fun _ => limit t roots) c.start calls =
        calls.map (answerUncached t roots)) ∧
    (∀ (size : Int) (paths : List Path) (roots : List ClassRoot), 1 ≤ size →
      paths.mapM (ClassRoot.ofPath t) = .ok roots →
      ∃ cp, ofRoots t size paths = .ok cp ∧
        cp.answers t calls = calls.map (answerUncached t roots)) ∧
    ∀ (name : String) (roots : List ClassRoot), ∃ r,
      answerUncached t roots (.load name) = .loaded r ∧ FirstHolder t name roots r := by
  refine ⟨?_, ?_, ?_⟩
  · intro c roots hc
    have hstart : Sound t roots c c.start := ⟨_, .start, fun name cf h => nomatch h⟩
    exact answersWith_of_faithful (faithful_through hc t roots) (fun _ _ => Nat.le_refl _) hstart
      calls
  · intro size paths roots hsize hroots
    have hopen := ofRoots_eq_ok hsize hroots
    refine ⟨_, hopen, ?_⟩
    rw [answers_eq_answersWith]
    refine answersWith_of_faithful (faithful_load t roots) ?_ ⟨rfl, coherent_ofRoots hopen⟩ calls
    rintro cp ⟨rfl, -⟩
    exact limit_le t cp
  · intro name roots
    exact ⟨find t name roots, rfl, firstHolder_find t name roots⟩

/-- Calls that come back to a class, search from classes with and without missing supertypes, and ask
    for a class that is missing. -/
def sampleCalls : List Call :=
  [.load "p/A", .overrides "p.A" "run" "()V", .load "p/A", .load "p/B", .load "p/A",
    .overrides "p.E" "run" "()V", .load "p/Gone", .overrides "p.A" "run" "()V"]

/-- Through a cache of one class, nearly every load finds another class there. -/
theorem answers_transparent_sample :
    answersWith (through (.bounded ClassFile 1) sampleTree samplePath.roots)
        (fun _ => limit sampleTree samplePath.roots) (.empty 1) sampleCalls =
      sampleCalls.map (answerUncached sampleTree samplePath.roots) ∧
    (∃ cp, ofRoots sampleTree 1 ["."] = .ok cp ∧
      cp.answers sampleTree sampleCalls =
        sampleCalls.map (answerUncached sampleTree samplePath.roots)) ∧
    ∃ cf, answerUncached sampleTree samplePath.roots (.load "p/A") = .loaded (.ok cf) := by
  obtain ⟨hlawful, hopened, -⟩ := answers_transparent sampleTree sampleCalls
  have hroot : ClassRoot.ofPath sampleTree "." = .ok (.directory ".") := by
    unfold ClassRoot.ofPath
    rw [sampleTree, stat_here]
  have hroots : [("." : Path)].mapM (ClassRoot.ofPath sampleTree) = .ok samplePath.roots := by
    rw [List.mapM_cons, hroot]
    rfl
  obtain ⟨cf, hfind⟩ := exists_class_of_mem sample_facts.2.2.1
  refine ⟨hlawful _ _ (CacheBehaviour.lawful_bounded ClassFile 1),
    hopened 1 ["."] samplePath.roots (by decide) hroots, cf, ?_⟩
  exact congrArg Answer.loaded hfind

end ClassPath

end ClassAudit
