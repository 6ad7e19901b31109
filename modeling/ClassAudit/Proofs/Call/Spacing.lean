import ClassAudit.Proofs.Call.Target

/-! # The spacing of a normal signature

    A signature is normal if no white space in it could be left out. What normalising does can be
    said in two steps: every run of white space becomes one space (`collapse`), and then the spaces
    go that are loose (`dropLoose`), which each space is or is not by the characters next to it.
    So the eight passes, which see what earlier passes have left, look at nothing but that, and
    a target that has been normalised is not changed again.
-/

namespace ClassAudit

namespace Text

/-! ### Trimming and squeezing again -/

theorem trimChars_trimChars (cs : List Char) : trimChars (trimChars cs) = trimChars cs := by
  obtain ⟨before, after, hbefore, hafter, hcs⟩ := exists_gaps cs
  have htrim := trimChars_append hbefore hafter (trimChars cs)
  rw [← hcs] at htrim
  exact htrim.symm

theorem trim_trim (s : String) : trim (trim s) = trim s := by
  unfold trim
  rw [String.toList_ofList, trimChars_trimChars]

variable {superfluous : Char → Char → Bool} {last : Option Char} {gap : Bool}

theorem squeeze_separator {c : Char} (hc : isBlank c = false) (cs : List Char) :
    squeeze superfluous last false (separator superfluous last gap c ++ c :: cs) =
      separator superfluous last gap c ++ c :: squeeze superfluous (some c) false cs := by
  unfold separator
  split
  · next b =>
    split
    · simp [squeeze_cons hc]
    · next hcounts =>
      have hspace : isBlank ' ' = true := rfl
      rw [List.singleton_append, squeeze_blank hspace, squeeze_cons hc]
      simp [separator, hcounts]
  · simp [squeeze_cons hc]

/-- What has been squeezed has no gap left that is superfluous, nor one longer than a space. -/
theorem squeeze_squeeze (cs : List Char) :
    squeeze superfluous last false (squeeze superfluous last gap cs) =
      squeeze superfluous last gap cs := by
  induction cs generalizing last gap with
  | nil => rfl
  | cons c cs ih =>
    cases hc : isBlank c with
    | true => rw [squeeze_blank hc, ih]
    | false => rw [squeeze_cons hc, squeeze_separator hc, ih]

/-! ### Runs of white space -/

/-- A text with one space in the place of every run of white space, which stands for the last
    character of the run. -/
def collapse : List Char → List Char
  | [] => []
  | c :: cs =>
    if isBlank c then
      if cs.head?.any isBlank then collapse cs else ' ' :: collapse cs
    else c :: collapse cs

theorem collapse_solid {c : Char} (hc : isBlank c = false) (cs : List Char) :
    collapse (c :: cs) = c :: collapse cs := by
  simp [collapse, hc]

/-- Of a run, all but the last character go. -/
theorem collapse_run {b c : Char} (hb : isBlank b = true) (hc : isBlank c = true)
    (cs : List Char) : collapse (b :: c :: cs) = collapse (c :: cs) := by
  rw [collapse, if_pos hb, if_pos (by simpa using hc)]

theorem collapse_end {b c : Char} (hb : isBlank b = true) (hc : isBlank c = false)
    (cs : List Char) : collapse (b :: c :: cs) = ' ' :: c :: collapse cs := by
  rw [collapse, if_pos hb, if_neg (by simpa using hc), collapse_solid hc]

end Text

namespace CallTarget

open Text

/-! ### Loose spaces -/

/-- A position of a text has a space that does not count: one at an end, in front of a mark, or
    behind a mark that opens something. -/
def IsLoose (cs : List Char) (i : Nat) : Prop :=
  cs[i]? = some ' ' ∧ (i = 0 ∨ i + 1 = cs.length ∨
    cs[i + 1]? ∈ ['(', ')', ',', '[', ']'].map some ∨ cs[i - 1]? ∈ ['(', ',', '['].map some)

instance (cs : List Char) (i : Nat) : Decidable (IsLoose cs i) :=
  inferInstanceAs (Decidable (_ ∧ _))

/-- A text without its loose spaces. -/
def dropLoose (cs : List Char) : List Char :=
  (cs.zipIdx.filter fun x => ¬IsLoose cs x.2).map Prod.fst

/-- Whether a space is loose by the characters around it, of which there is none at an end. -/
def looseBetween : Option Char → Option Char → Bool
  | some before, some after => isTight before after
  | _, _ => true

/-- Dropping loose spaces one after the other, with the character in front at hand. -/
def tighten (before : Option Char) : List Char → List Char
  | [] => []
  | c :: cs =>
    if c = ' ' ∧ looseBetween before cs.head? = true then tighten (some c) cs
    else c :: tighten (some c) cs

/-- Whether a space is loose can be told from the characters next to it. -/
theorem isLoose_iff (front cs : List Char) (c : Char) :
    IsLoose (front ++ c :: cs) front.length ↔
      c = ' ' ∧ looseBetween front.getLast? cs.head? = true := by
  have hat : (front ++ c :: cs)[front.length]? = some c := by simp
  have hafter : (front ++ c :: cs)[front.length + 1]? = cs.head? := by
    rw [List.getElem?_append_right (by omega)]
    simp [List.head?_eq_getElem?]
  rw [IsLoose, hat, hafter, Option.some.injEq]
  refine and_congr_right fun _ => ?_
  rcases front.eq_nil_or_concat with rfl | ⟨front, b, rfl⟩
  · simp [looseBetween]
  · have hbefore : (front ++ [b] ++ c :: cs)[(front ++ [b]).length - 1]? = some b := by simp
    rw [List.concat_eq_append, hbefore, List.getLast?_concat]
    cases cs with
    | nil => simp [looseBetween]
    | cons d cs =>
      have hinner : (front ++ [b]).length + 1 ≠ (front ++ [b] ++ c :: d :: cs).length := by
        simp only [List.length_append, List.length_cons]
        omega
      simp only [hinner, false_or]
      simp [looseBetween, isTight]

/-- The characters behind a front are kept or dropped one by one. -/
theorem dropLoose_append (front cs : List Char) :
    ((cs.zipIdx front.length).filter fun x => ¬IsLoose (front ++ cs) x.2).map Prod.fst =
      tighten front.getLast? cs := by
  induction cs generalizing front with
  | nil => rfl
  | cons c cs ih =>
    have hrest := ih (front ++ [c])
    rw [List.length_append, List.append_assoc, List.getLast?_concat] at hrest
    rw [List.zipIdx_cons, List.filter_cons, tighten, ← hrest]
    simp only [isLoose_iff, decide_eq_true_eq]
    split <;> simp_all

theorem dropLoose_eq (cs : List Char) : dropLoose cs = tighten none cs :=
  dropLoose_append [] cs

/-! ### Two steps for one -/

theorem tighten_space (before : Option Char) {c : Char} (hc : c ≠ ' ') (cs : List Char) :
    tighten before (' ' :: c :: cs) = separator isTight before true c ++ c :: tighten (some c) cs := by
  have hsolid : tighten (some ' ') (c :: cs) = c :: tighten (some c) cs := by simp [tighten, hc]
  rw [tighten, hsolid]
  cases before with
  | none => simp [looseBetween, separator]
  | some b => cases htight : isTight b c <;> simp [looseBetween, separator, htight]

/-- Squeezing a text is collapsing it and dropping its loose spaces. Behind white space the space is
    still to come, since it stands for the end of its run. -/
theorem tighten_collapse (cs : List Char) :
    (∀ last, tighten last (collapse cs) = squeeze isTight last false cs) ∧
      ∀ last b, isBlank b = true →
        tighten last (collapse (b :: cs)) = squeeze isTight last true cs := by
  induction cs with
  | nil =>
    refine ⟨fun _ => rfl, fun last b hb => ?_⟩
    cases last <;> simp [collapse, hb, tighten, looseBetween, squeeze]
  | cons c cs ih =>
    cases hc : isBlank c with
    | true =>
      refine ⟨fun last => ?_, fun last b hb => ?_⟩
      · rw [ih.2 last c hc, squeeze_blank hc]
      · rw [collapse_run hb hc, ih.2 last c hc, squeeze_blank hc]
    | false =>
      refine ⟨fun last => ?_, fun last b hb => ?_⟩
      · rw [collapse_solid hc, tighten, if_neg (by simp [ne_space hc]), ih.1, squeeze_cons hc,
          separator_false, List.nil_append]
      · rw [collapse_end hb hc, tighten_space last (ne_space hc), ih.1, squeeze_cons hc]

theorem normaliseChars_eq_dropLoose (cs : List Char) :
    normaliseChars cs = dropLoose (collapse cs) := by
  rw [normaliseChars_eq, dropLoose_eq, (tighten_collapse cs).1]

example : dropLoose (collapse "\t void  foo ( int , long [ ] x ) ".toList) =
    "void foo(int,long[] x)".toList := by
  decide

theorem normaliseChars_normaliseChars (cs : List Char) :
    normaliseChars (normaliseChars cs) = normaliseChars cs := by
  rw [normaliseChars_eq, normaliseChars_eq, squeeze_squeeze]

/-- **Normal targets.** A target that has been normalised is not changed again, and its signature
    is what has been written with single spaces for white space, and of these without the loose
    ones. -/
theorem ofText_normal (className signature : String) :
    ofText (ofText className signature).className (ofText className signature).signature =
        ofText className signature ∧
      (ofText className signature).signature.toList = dropLoose (collapse signature.toList) := by
  constructor
  · show CallTarget.mk (trim (trim className)) _ = CallTarget.mk (trim className) _
    rw [trim_trim, CallTarget.mk.injEq]
    refine ⟨rfl, ?_⟩
    show String.ofList (normaliseChars (String.ofList _).toList) = String.ofList _
    rw [String.toList_ofList, normaliseChars_normaliseChars]
  · rw [← normaliseChars_eq_dropLoose]
    exact String.toList_ofList

end CallTarget

end ClassAudit
