import Mathlib.Order.Lattice.Nat

/-! # Visiting level by level

    A traversal visits the nodes of a graph from a queue, and puts the successors of a node that it
    visits at the end of the queue. A node that was seen is skipped when it comes out of the queue,
    and so it may stand there more than once.

    The queue holds two levels at most: what is left of the current one, and what has been found of
    the next one (`Levels`). From what one visit keeps of this it follows that a whole traversal
    visits every node that can be reached, none of them twice, the nearer ones first.
-/

namespace ClassAudit.Traversal

variable {α : Type}
variable {a : α} {queue seen rest nodes : List α} {next : α → List α} {fuel : Nat}

/-! ### Walks -/

/-- A walk with a number of steps. -/
inductive Walk (r : α → α → Prop) (start : α) : Nat → α → Prop where
  | refl : Walk r start 0 start
  | step {n : Nat} {a b : α} : Walk r start n a → r a b → Walk r start (n + 1) b

/-- A node to which a walk leads. -/
def Reachable (r : α → α → Prop) (start a : α) : Prop :=
  ∃ n, Walk r start n a

/-- The length of the shortest walk to a node. -/
noncomputable def distance (r : α → α → Prop) (start a : α) : Nat :=
  sInf {n | Walk r start n a}

theorem distance_le {r : α → α → Prop} {start : α} {n : Nat} (h : Walk r start n a) :
    distance r start a ≤ n :=
  Nat.sInf_le h

theorem walk_distance {r : α → α → Prop} {start : α} (h : Reachable r start a) :
    Walk r start (distance r start a) a :=
  Nat.sInf_mem h

/-! ### Levels -/

/-- The steps to successors. -/
abbrev Succ (next : α → List α) : α → α → Prop := fun a b => b ∈ next a

/-- Each successor of what was seen was seen or is in the queue. -/
def Closed (next : α → List α) (seen queue : List α) : Prop :=
  ∀ a ∈ seen, ∀ b ∈ next a, b ∈ seen ∨ b ∈ queue

/-- Whatever is less than `k` steps away was seen. The queue holds the rest of the nodes that are
    `k` steps away, and behind them some that are a step further. -/
structure Levels (next : α → List α) (start : α) (k : Nat) (seen current coming : List α) :
    Prop where
  walk_current : ∀ a ∈ current, Walk (Succ next) start k a
  walk_coming : ∀ a ∈ coming, Walk (Succ next) start (k + 1) a
  nearer : ∀ n < k, ∀ a, Walk (Succ next) start n a → a ∈ seen
  level : ∀ a, Walk (Succ next) start k a → a ∈ seen ∨ a ∈ current
  closed : Closed next seen (current ++ coming)

namespace Levels

variable {next : α → List α} {start a : α} {k : Nat} {seen current coming : List α}

theorem init (next : α → List α) (start : α) : Levels next start 0 [start] [] (next start) where
  walk_current := by simp
  walk_coming := fun a ha => .step .refl ha
  nearer := by simp
  level := by
    intro a ha
    cases ha
    exact .inl List.mem_cons_self
  closed := by
    intro a ha b hb
    rw [List.mem_singleton.mp ha] at hb
    exact .inr hb

/-- When the current level is done, the next one is complete. -/
theorem nextLevel (h : Levels next start k seen [] coming) :
    Levels next start (k + 1) seen coming [] where
  walk_current := h.walk_coming
  walk_coming := by simp
  nearer := by
    intro n hn a ha
    rcases Nat.lt_succ_iff_lt_or_eq.mp hn with hn | rfl
    · exact h.nearer n hn a ha
    · simpa using h.level a ha
  level := by
    intro b hb
    cases hb with
    | @step _ a _ ha hb =>
      -- The node before is on the level that is done.
      have hseen : a ∈ seen := by simpa using h.level a ha
      exact h.closed a hseen b hb
  closed := by simpa using h.closed

theorem visit (h : Levels next start k seen (a :: current) coming) :
    Levels next start k (a :: seen) current (coming ++ next a) where
  walk_current := fun b hb => h.walk_current b (List.mem_cons_of_mem a hb)
  walk_coming := by
    intro b hb
    rcases List.mem_append.mp hb with hb | hb
    · exact h.walk_coming b hb
    · exact .step (h.walk_current a List.mem_cons_self) hb
  nearer := fun n hn b hb => List.mem_cons_of_mem a (h.nearer n hn b hb)
  level := by
    intro b hb
    have h' := h.level b hb
    simp only [List.mem_cons] at h' ⊢
    tauto
  closed := by
    intro b hb c hc
    rcases List.mem_cons.mp hb with rfl | hb
    · exact .inr (by simp [hc])
    · have h' := h.closed b hb c hc
      simp only [List.mem_cons, List.mem_append] at h' ⊢
      tauto

/-- What has not been seen is at least as far away as the current level. -/
theorem le_distance (h : Levels next start k seen current coming)
    (ha : Reachable (Succ next) start a) (hseen : a ∉ seen) :
    k ≤ distance (Succ next) start a := by
  by_contra hlt
  exact hseen (h.nearer _ (Nat.lt_of_not_le hlt) a (walk_distance ha))

end Levels

/-! ### The traversal -/

variable [DecidableEq α]

/-- The nodes that are visited from a queue, in order. The fuel bounds their number. -/
def visit (next : α → List α) : Nat → List α → List α → List α
  | 0, _, _ => []
  | fuel + 1, seen, queue =>
    match queue.dropWhile (· ∈ seen) with
    | [] => []
    | a :: queue => a :: visit next fuel (a :: seen) (queue ++ next a)

/-- What is skipped was seen. -/
theorem mem_or_mem_dropWhile (seen : List α) (h : a ∈ queue) :
    a ∈ seen ∨ a ∈ queue.dropWhile (· ∈ seen) := by
  rw [← List.takeWhile_append_dropWhile (p := (· ∈ seen)) (l := queue), List.mem_append] at h
  rcases h with h | h
  · left
    simpa using List.all_eq_true.mp List.all_takeWhile a h
  · right
    exact h

theorem not_mem_of_dropWhile (h : queue.dropWhile (· ∈ seen) = a :: rest) : a ∉ seen := by
  have hhead := List.head?_dropWhile_not (· ∈ seen) queue
  rw [h] at hhead
  simpa using hhead

theorem visit_cases (next : α → List α) (fuel : Nat) (seen queue : List α) :
    (visit next (fuel + 1) seen queue = [] ∧ ∀ a ∈ queue, a ∈ seen) ∨
    ∃ a rest, queue.dropWhile (· ∈ seen) = a :: rest ∧ a ∉ seen ∧ a ∈ queue ∧
      visit next (fuel + 1) seen queue = a :: visit next fuel (a :: seen) (rest ++ next a) := by
  cases hdrop : queue.dropWhile (· ∈ seen) with
  | nil =>
    left
    refine ⟨by rw [visit, hdrop], ?_⟩
    intro a ha
    have h := mem_or_mem_dropWhile seen ha
    rw [hdrop] at h
    simpa using h
  | cons a rest =>
    right
    have hmem : a ∈ queue.dropWhile (· ∈ seen) := by rw [hdrop]; exact List.mem_cons_self
    exact ⟨a, rest, rfl, not_mem_of_dropWhile hdrop, List.dropWhile_subset _ hmem,
      by rw [visit, hdrop]⟩

theorem nodup_visit (next : α → List α) (fuel : Nat) (seen queue : List α) :
    (visit next fuel seen queue).Nodup ∧ ∀ a ∈ visit next fuel seen queue, a ∉ seen := by
  induction fuel generalizing seen queue with
  | zero => exact ⟨List.nodup_nil, by simp [visit]⟩
  | succ fuel ih =>
    rcases visit_cases next fuel seen queue with ⟨hvisit, -⟩ | ⟨a, rest, -, ha, -, hvisit⟩
    · rw [hvisit]
      exact ⟨List.nodup_nil, by simp⟩
    · have ⟨hnodup, hfresh⟩ := ih (a :: seen) (rest ++ next a)
      rw [hvisit]
      refine ⟨List.nodup_cons.mpr ⟨?_, hnodup⟩, ?_⟩
      · intro hmem
        exact hfresh a hmem List.mem_cons_self
      · intro b hb
        rcases List.mem_cons.mp hb with rfl | hb
        · exact ha
        · exact fun hseen => hfresh b hb (List.mem_cons_of_mem a hseen)

/-! ### Completeness -/

theorem Closed.visit (h : Closed next seen queue) (hdrop : queue.dropWhile (· ∈ seen) = a :: rest) :
    Closed next (a :: seen) (rest ++ next a) := by
  intro b hb c hc
  rcases List.mem_cons.mp hb with rfl | hb
  · exact .inr (List.mem_append_right _ hc)
  · have hc' : c ∈ seen ∨ c ∈ a :: rest := by
      rcases h b hb c hc with hc | hc
      · exact .inl hc
      · rw [← hdrop]
        exact mem_or_mem_dropWhile seen hc
    simp only [List.mem_cons, List.mem_append] at hc' ⊢
    tauto

theorem length_left_lt (hnode : a ∈ nodes) (ha : a ∉ seen) :
    (nodes.filter (· ∉ a :: seen)).length < (nodes.filter (· ∉ seen)).length := by
  have hfilter : nodes.filter (· ∉ a :: seen) = (nodes.filter (· ∉ seen)).filter (· ≠ a) := by
    rw [List.filter_filter]
    simp
  rw [hfilter, List.length_filter_lt_length_iff_exists]
  exact ⟨a, by simp [hnode, ha], by simp⟩

/-- The fuel suffices if it is not less than the number of nodes that are left: then what was seen
    and what is visited is closed. -/
theorem closed_visit (hnext : ∀ a, ∀ b ∈ next a, b ∈ nodes) (hqueue : ∀ a ∈ queue, a ∈ nodes)
    (hfuel : (nodes.filter (· ∉ seen)).length ≤ fuel) (hclosed : Closed next seen queue) :
    Closed next (seen ++ visit next fuel seen queue) [] := by
  induction fuel generalizing seen queue with
  | zero =>
    -- Nothing is left, so all that is in the queue was seen.
    have hseen : ∀ a ∈ nodes, a ∈ seen := by
      have hnil := List.eq_nil_of_length_eq_zero (Nat.le_zero.mp hfuel)
      simpa using List.filter_eq_nil_iff.mp hnil
    intro a ha b hb
    rw [visit, List.append_nil] at ha ⊢
    rcases hclosed a ha b hb with h | h
    · exact .inl h
    · exact .inl (hseen b (hqueue b h))
  | succ fuel ih =>
    rcases visit_cases next fuel seen queue with ⟨hvisit, hall⟩ | ⟨a, rest, hdrop, ha, hmem, hvisit⟩
    · rw [hvisit, List.append_nil]
      intro a ha b hb
      rcases hclosed a ha b hb with h | h
      · exact .inl h
      · exact .inl (hall b h)
    · have hrest : ∀ b ∈ rest ++ next a, b ∈ nodes := by
        intro b hb
        rcases List.mem_append.mp hb with hb | hb
        · have hb' : b ∈ queue.dropWhile (· ∈ seen) := by
            rw [hdrop]
            exact List.mem_cons_of_mem a hb
          exact hqueue b (List.dropWhile_subset _ hb')
        · exact hnext a b hb
      -- The node that is visited is one of those that were left.
      have hless := length_left_lt (hqueue a hmem) ha
      have hrun := ih hrest (by omega) (hclosed.visit hdrop)
      rw [hvisit]
      intro b hb c hc
      have hb' : b ∈ a :: seen ++ visit next fuel (a :: seen) (rest ++ next a) := by
        simp only [List.mem_cons, List.mem_append] at hb ⊢
        tauto
      have hc' := hrun b hb' c hc
      simp only [List.mem_cons, List.mem_append, List.not_mem_nil, or_false] at hc' ⊢
      tauto

/-! ### Levels of a traversal -/

namespace Levels

variable {next : α → List α} {start a : α} {k : Nat} {seen current coming : List α}

theorem skip (h : Levels next start k seen current coming) :
    Levels next start k seen (current.dropWhile (· ∈ seen)) coming where
  walk_current := fun a ha => h.walk_current a (List.dropWhile_subset _ ha)
  walk_coming := h.walk_coming
  nearer := h.nearer
  level := by
    intro a ha
    rcases h.level a ha with ha | ha
    · exact .inl ha
    · exact mem_or_mem_dropWhile seen ha
  closed := by
    intro a ha b hb
    rw [List.mem_append]
    rcases h.closed a ha b hb with hb | hb
    · exact .inl hb
    · rcases List.mem_append.mp hb with hb | hb
      · rcases mem_or_mem_dropWhile seen hb with hb | hb
        · exact .inl hb
        · exact .inr (.inl hb)
      · exact .inr (.inr hb)

/-- The first node in the queue that was not seen is on the current level, or it is the first of
    the next one. -/
theorem step (h : Levels next start k seen current coming)
    (hdrop : (current ++ coming).dropWhile (· ∈ seen) = a :: rest) :
    ∃ k' current' coming', rest = current' ++ coming' ∧
      Levels next start k' seen (a :: current') coming' := by
  rw [List.dropWhile_append] at hdrop
  have hskip := h.skip
  cases hcurrent : current.dropWhile (· ∈ seen) with
  | nil =>
    rw [hcurrent] at hdrop hskip
    have hnext := hskip.nextLevel.skip
    rw [show coming.dropWhile (· ∈ seen) = a :: rest by simpa using hdrop] at hnext
    exact ⟨k + 1, rest, [], by simp, hnext⟩
  | cons b current' =>
    rw [hcurrent] at hdrop hskip
    have heq : b = a ∧ current' ++ coming = rest := by simpa using hdrop
    rw [heq.1] at hskip
    exact ⟨k, current', coming, heq.2.symm, hskip⟩

theorem reachable_of_mem_visit (h : Levels next start k seen current coming)
    (ha : a ∈ Traversal.visit next fuel seen (current ++ coming)) :
    Reachable (Succ next) start a := by
  induction fuel generalizing k seen current coming with
  | zero => simp [Traversal.visit] at ha
  | succ fuel ih =>
    rcases visit_cases next fuel seen (current ++ coming) with
      ⟨hvisit, -⟩ | ⟨b, rest, hdrop, -, -, hvisit⟩
    · simp [hvisit] at ha
    · have ⟨k', current', coming', hrest, hlevels⟩ := h.step hdrop
      rw [hvisit, hrest, List.append_assoc] at ha
      rcases List.mem_cons.mp ha with rfl | ha
      · exact ⟨k', hlevels.walk_current a List.mem_cons_self⟩
      · exact ih hlevels.visit ha

theorem pairwise_distance (h : Levels next start k seen current coming) (fuel : Nat) :
    (Traversal.visit next fuel seen (current ++ coming)).Pairwise
      fun a b => distance (Succ next) start a ≤ distance (Succ next) start b := by
  induction fuel generalizing k seen current coming with
  | zero => exact .nil
  | succ fuel ih =>
    rcases visit_cases next fuel seen (current ++ coming) with
      ⟨hvisit, -⟩ | ⟨a, rest, hdrop, -, -, hvisit⟩
    · rw [hvisit]
      exact .nil
    · have ⟨k', current', coming', hrest, hlevels⟩ := h.step hdrop
      rw [hvisit, hrest, List.append_assoc]
      refine List.pairwise_cons.mpr ⟨?_, ih hlevels.visit⟩
      intro b hb
      have hfresh := (nodup_visit next fuel (a :: seen) _).2 b hb
      calc distance (Succ next) start a
          ≤ k' := distance_le (hlevels.walk_current a List.mem_cons_self)
        _ ≤ distance (Succ next) start b :=
          hlevels.visit.le_distance (hlevels.visit.reachable_of_mem_visit hb) hfresh

end Levels

/-! ### The result -/

/-- A traversal from the successors of a node visits what can be reached from it, except the node
    itself, each once and in the order of the distance. -/
theorem visit_spec (hnext : ∀ a, ∀ b ∈ next a, b ∈ nodes) (hfuel : nodes.length ≤ fuel) (start : α) :
    (visit next fuel [start] (next start)).Nodup ∧
    (∀ a, a ∈ visit next fuel [start] (next start) ↔
      a ≠ start ∧ Reachable (Succ next) start a) ∧
    (visit next fuel [start] (next start)).Pairwise
      fun a b => distance (Succ next) start a ≤ distance (Succ next) start b := by
  have hlevels := Levels.init next start
  have ⟨hnodup, hfresh⟩ := nodup_visit next fuel [start] (next start)
  refine ⟨hnodup, ?_, hlevels.pairwise_distance fuel⟩
  intro a
  constructor
  · intro ha
    exact ⟨by simpa using hfresh a ha, hlevels.reachable_of_mem_visit ha⟩
  · intro ⟨hne, n, hwalk⟩
    have hleft := List.length_filter_le (· ∉ [start]) nodes
    have hclosed := closed_visit hnext (hnext start) (Nat.le_trans hleft hfuel) hlevels.closed
    have hmem : a ∈ [start] ++ visit next fuel [start] (next start) := by
      clear hne
      induction hwalk with
      | refl => simp
      | step _ hstep ih => simpa using hclosed _ ih _ hstep
    simpa [hne] using hmem

end ClassAudit.Traversal
