import ClassAudit.ClassFile.Name

/-! # Names of classes

    A name is written with slashes or with dots, and one without dots of its own can be told from
    both. A list is cut at the first place where a mark stands in one way only: cutting the reversed
    name of a class at the first slash gives its package, which is what comes before the last slash.
-/

namespace ClassAudit

/-- The two parts of a list around the first occurrence of a mark. -/
theorem eq_append_cons_iff {α : Type} [DecidableEq α] {mark : α} {xs before after : List α} :
    (xs = before ++ mark :: after ∧ mark ∉ before) ↔
      xs.takeWhile (· ≠ mark) = before ∧ xs.dropWhile (· ≠ mark) = mark :: after := by
  constructor
  · rintro ⟨rfl, hnot⟩
    have hbefore : ∀ x ∈ before, decide (x ≠ mark) = true := by
      intro x hx
      rw [decide_eq_true_eq]
      rintro rfl
      exact hnot hx
    rw [List.takeWhile_append_of_pos hbefore, List.dropWhile_append_of_pos hbefore]
    simp
  · rintro ⟨rfl, hafter⟩
    refine ⟨?_, fun hmem => ?_⟩
    · rw [← hafter, List.takeWhile_append_dropWhile]
    · simpa using List.all_eq_true.mp List.all_takeWhile mark hmem

theorem eq_of_dropWhile_ne {α : Type} [DecidableEq α] {mark x : α} {xs after : List α}
    (h : xs.dropWhile (· ≠ mark) = x :: after) : x = mark := by
  have hhead := List.head?_dropWhile_not (· ≠ mark) xs
  rw [h] at hhead
  simpa using hhead

/-- Of two lists that are cut at the same mark, and nowhere before, both parts agree. -/
theorem append_cons_inj {α : Type} [DecidableEq α] {mark : α} {before before' after after' : List α}
    (hbefore : mark ∉ before) (hbefore' : mark ∉ before') :
    before ++ mark :: after = before' ++ mark :: after' ↔ before = before' ∧ after = after' := by
  constructor
  · intro h
    obtain ⟨htake, hdrop⟩ := eq_append_cons_iff.mp ⟨h, hbefore'⟩
    obtain ⟨htake', hdrop'⟩ := eq_append_cons_iff.mp ⟨rfl, hbefore⟩
    rw [htake'] at htake
    rw [hdrop'] at hdrop
    exact ⟨htake, (List.cons.inj hdrop).2⟩
  · rintro ⟨rfl, rfl⟩
    rfl

namespace ClassName

/-! ### Dots and slashes -/

theorem internal_binary {name : String} (h : '.' ∉ name.toList) :
    internal (binary name) = name := by
  unfold internal binary
  rw [String.toList_ofList, List.map_map, ← String.toList_inj, String.toList_ofList]
  refine (List.map_congr_left fun c hc => ?_).trans (List.map_id _)
  have hdot : c ≠ '.' := fun heq => h (heq ▸ hc)
  by_cases hslash : c = '/'
  · simp [hslash]
  · simp [hslash, hdot]

theorem binary_inj {name name' : String} (h : '.' ∉ name.toList) (h' : '.' ∉ name'.toList)
    (heq : binary name = binary name') : name = name' := by
  rw [← internal_binary h, heq, internal_binary h']

theorem mem_binary {name : String} {c : Char} (h : c ∈ (binary name).toList) :
    c ∈ name.toList ∨ c = '.' := by
  unfold binary at h
  rw [String.toList_ofList] at h
  obtain ⟨d, hd, rfl⟩ := List.mem_map.mp h
  by_cases hslash : d = '/'
  · simp [hslash]
  · simp [hslash, hd]

theorem eq_of_binary_eq {name text : String} (h : binary name = text) (hdot : '.' ∉ text.toList) :
    name = text := by
  subst h
  rw [← String.toList_inj]
  unfold binary at hdot ⊢
  rw [String.toList_ofList] at hdot ⊢
  refine ((List.map_congr_left fun c hc => ?_).trans (List.map_id _)).symm
  have hslash : c ≠ '/' := by
    rintro rfl
    exact hdot (List.mem_map.mpr ⟨'/', hc, rfl⟩)
  simp [hslash]

/-! ### Packages -/

/-- A class is in a package, given with slashes, that is not the default package. -/
def InPackage (name package : List Char) : Prop :=
  package ≠ [] ∧ ∃ simple, name = package ++ '/' :: simple ∧ '/' ∉ simple

theorem inPackage_iff {name package : List Char} :
    InPackage name package ↔ package ≠ [] ∧ packageChars name = package := by
  unfold InPackage packageChars
  refine and_congr_right fun hpackage => ⟨?_, fun h => ?_⟩
  · rintro ⟨simple, rfl, hsimple⟩
    -- The last slash is the first one of the reversed name.
    have hcut : (package ++ '/' :: simple).reverse = simple.reverse ++ '/' :: package.reverse := by
      simp
    have hsimple' : '/' ∉ simple.reverse := by rwa [List.mem_reverse]
    rw [(eq_append_cons_iff.mp ⟨hcut, hsimple'⟩).2, List.drop_one, List.tail_cons,
      List.reverse_reverse]
  · cases hdrop : name.reverse.dropWhile (· ≠ '/') with
    | nil =>
      -- Without a slash there is no package.
      rw [hdrop] at h
      exact absurd h.symm hpackage
    | cons c rest =>
      obtain rfl := eq_of_dropWhile_ne hdrop
      obtain ⟨hcut, hsimple⟩ := eq_append_cons_iff.mpr ⟨rfl, hdrop⟩
      rw [hdrop, List.drop_one, List.tail_cons] at h
      refine ⟨(name.reverse.takeWhile (· ≠ '/')).reverse, ?_, by rwa [List.mem_reverse]⟩
      have hname := congrArg List.reverse hcut
      rw [List.reverse_reverse, List.reverse_append, List.reverse_cons, h] at hname
      rw [List.append_assoc, List.singleton_append] at hname
      exact hname

end ClassName

end ClassAudit
