import Mathlib.Data.List.TakeWhile
import ClassAudit.ClassFile.Descriptor
import ClassAudit.Proofs.ClassFile.Name

/-! # Classes that a descriptor mentions

    `Mentions` says which names stand in a descriptor: from left to right, each `L` opens a name
    that the next semicolon closes. `Descriptor.mentioned` finds exactly these names.
-/

namespace ClassAudit.Descriptor

/-- A text mentions a name: it stands between an `L`, which is not part of an earlier name, and the
    next semicolon. -/
inductive Mentions : List Char → List Char → Prop where
  | here {name rest : List Char} :
      ';' ∉ name → Mentions ('L' :: (name ++ ';' :: rest)) name
  | later {first rest name : List Char} :
      ';' ∉ first → Mentions rest name → Mentions ('L' :: (first ++ ';' :: rest)) name
  | skip {c : Char} {rest name : List Char} :
      c ≠ 'L' → Mentions rest name → Mentions (c :: rest) name

/-- A name that is mentioned holds no semicolon. -/
theorem Mentions.not_mem {cs name : List Char} (h : Mentions cs name) : ';' ∉ name := by
  induction h with
  | here hname => exact hname
  | later _ _ ih => exact ih
  | skip _ _ ih => exact ih

theorem Mentions.mem {cs name : List Char} (h : Mentions cs name) : ';' ∈ cs := by
  induction h with
  | here _ => simp
  | later _ _ _ => simp
  | skip _ _ ih => exact List.mem_cons_of_mem _ ih

theorem mentions_cons_iff {c : Char} {rest name : List Char} (hc : c ≠ 'L') :
    Mentions (c :: rest) name ↔ Mentions rest name := by
  refine ⟨fun h => ?_, .skip hc⟩
  cases h with
  | here _ => exact absurd rfl hc
  | later _ _ => exact absurd rfl hc
  | skip _ h => exact h

/-- The first semicolon closes the name that an `L` opens. -/
theorem mentions_open_iff {cs after name : List Char}
    (hafter : cs.dropWhile (· ≠ ';') = ';' :: after) :
    Mentions ('L' :: cs) name ↔ name = cs.takeWhile (· ≠ ';') ∨ Mentions after name := by
  constructor
  · intro h
    cases h with
    | here hname =>
      obtain ⟨hfirst, -⟩ := eq_append_cons_iff.mp ⟨rfl, hname⟩
      exact .inl hfirst.symm
    | later hfirst hrest =>
      obtain ⟨-, hdrop⟩ := eq_append_cons_iff.mp ⟨rfl, hfirst⟩
      rw [hdrop] at hafter
      exact .inr ((List.cons.inj hafter).2 ▸ hrest)
    | skip hne _ => exact absurd rfl hne
  · obtain ⟨hcut, hfirst⟩ := eq_append_cons_iff.mpr ⟨rfl, hafter⟩
    generalize cs.takeWhile (· ≠ ';') = first at hcut hfirst ⊢
    subst hcut
    rintro (rfl | hrest)
    · exact .here hfirst
    · exact .later hfirst hrest

theorem mem_mentioned_iff {cs name : List Char} : name ∈ mentioned cs ↔ Mentions cs name := by
  fun_induction mentioned cs with
  | case1 => exact ⟨(fun h => nomatch h), (fun h => nomatch h)⟩
  | case2 rest hdrop =>
    -- No semicolon closes the name.
    refine ⟨(fun h => nomatch h), fun h => ?_⟩
    rcases List.mem_cons.mp h.mem with hne | hmem
    · exact absurd hne (by decide)
    · simpa using List.dropWhile_eq_nil_iff.mp hdrop ';' hmem
  | case3 rest c after hdrop _ ih =>
    obtain rfl := eq_of_dropWhile_ne hdrop
    rw [List.mem_cons, ih, mentions_open_iff hdrop]
  | case4 c rest hc ih => exact ih.trans (mentions_cons_iff hc).symm

end ClassAudit.Descriptor
