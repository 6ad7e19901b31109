import ClassAudit.Command.Arguments

/-! # Options and paths in any order

    The arguments of a check command are paths and options with values. They may come in any order,
    and a value may look like an option or like a path itself. `Item` is one of them, so that a list
    of items is a way to write arguments, and `Item.words` tells how.

    The reader keeps the paths so far and the last value. What an item does to them is
    `read_words`, and `read_arguments` follows from it: paths and values are read apart, whatever
    stands between them.
-/

namespace ClassAudit.CheckArguments

/-! ### Items -/

/-- Whether an argument is no option: it is a dash alone, or does not start with one. -/
def IsPath (arg : String) : Prop :=
  arg = "-" ∨ arg.toList.head? ≠ some '-'

instance (arg : String) : Decidable (IsPath arg) :=
  inferInstanceAs (Decidable (_ ∨ _))

/-- What an option starts with. -/
inductive Dashes
  | one
  | two

def Dashes.text : Dashes → String
  | one => "-"
  | two => "--"

/-- A path, or an option with its value. -/
inductive Item
  | path (arg : String) (isPath : IsPath arg)
  /-- The value is the next argument. -/
  | separate (dashes : Dashes) (value : String)
  /-- The value stands behind an equality sign. -/
  | joined (dashes : Dashes) (value : String)

namespace Item

def words : Item → List String
  | path arg _ => [arg]
  | separate dashes value => [dashes.text ++ "report", value]
  | joined dashes value => [dashes.text ++ "report=" ++ value]

def path? : Item → Option String
  | path arg _ => some arg
  | separate _ _ | joined _ _ => none

def value? : Item → Option String
  | path _ _ => none
  | separate _ value | joined _ value => some value

end Item

/-- Items written one after the other. -/
def arguments (items : List Item) : List String :=
  items.flatMap Item.words

def paths (items : List Item) : List String :=
  items.filterMap Item.path?

def values (items : List Item) : List String :=
  items.filterMap Item.value?

/-! ### What an argument is taken for -/

theorem Word.of_path {arg : String} (h : IsPath arg) : Word.of arg = .path := by
  rcases h with rfl | h
  · rfl
  · unfold Word.of
    split
    · next heq => exact absurd (by rw [heq]; rfl) h
    · next heq => exact absurd (by rw [heq]; rfl) h
    · next heq => exact absurd (by rw [heq]; rfl) h
    · rfl

theorem Word.of_separate (dashes : Dashes) : Word.of (dashes.text ++ "report") = .report none := by
  cases dashes <;> rfl

theorem Word.of_joined (dashes : Dashes) (value : String) :
    Word.of (dashes.text ++ "report=" ++ value) = .report (some value) := by
  have hoption : Word.ofOption ("report=".toList ++ value.toList) = .report (some value) := by
    simp [Word.ofOption]
  unfold Word.of
  rw [String.toList_append, String.toList_append]
  cases dashes <;> exact hoption

/-! ### Reading items -/

variable {found : List String} {report : String}

/-- An item adds its path to those so far, or its value takes the place of the last one. -/
theorem read_words (item : Item) (rest : List String) :
    read false found report (item.words ++ rest) =
      read false (found ++ item.path?.toList) (item.value?.getD report) rest := by
  cases item with
  | path arg isPath =>
    show read false found report (arg :: rest) = _
    rw [read.eq_def]
    simp only [Word.of_path isPath]
    rfl
  | separate dashes value =>
    show read false found report (_ :: value :: rest) = _
    rw [read.eq_def]
    simp only [Word.of_separate]
    rw [Item.path?, Option.toList, List.append_nil]
    rfl
  | joined dashes value =>
    show read false found report (_ :: rest) = _
    rw [read.eq_def]
    simp only [Word.of_joined]
    rw [Item.path?, Option.toList, List.append_nil]
    rfl

/-- All paths are read, and the last value, or the one before all items if they have none. -/
theorem read_arguments (items : List Item) :
    read false found report (arguments items) =
      some (found ++ paths items, (values items).getLast?.getD report) := by
  induction items generalizing found report with
  | nil => simp [arguments, paths, values, read]
  | cons item items ih =>
    have hpaths : paths (item :: items) = item.path?.toList ++ paths items := by
      cases h : item.path? <;> simp [paths, h]
    have hvalues : (values (item :: items)).getLast?.getD report =
        (values items).getLast?.getD (item.value?.getD report) := by
      cases h : item.value? <;> simp [values, h, List.getLast?_cons]
    rw [hpaths, hvalues, ← List.append_assoc, ← ih]
    exact read_words item (arguments items)

theorem parse?_arguments (items : List Item) :
    parse? (arguments items) =
      if 2 ≤ (paths items).length then none
      else some ⟨(paths items).head?.getD Config.defaultFile,
        (values items).getLast?.getD ""⟩ := by
  rw [parse?, read_arguments, List.nil_append]
  rcases paths items with _ | ⟨path, _ | ⟨next, rest⟩⟩
  · rfl
  · rfl
  · simp

/-- **Options and paths.** Arguments make no sense only if there are two paths or more. Otherwise
    they say the path, or that of the usual project file if there is none, and the last value, or
    nothing if there is none. In which order paths and options come does not matter, nor how the
    options are spelled. -/
theorem parse_arranged (items : List Item) :
    (parse? (arguments items) = none ↔ 2 ≤ (paths items).length) ∧
    ((paths items).length ≤ 1 → parse? (arguments items) =
      some ⟨(paths items).head?.getD Config.defaultFile, (values items).getLast?.getD ""⟩) ∧
    ∀ others : List Item, paths others = paths items → values others = values items →
      parse? (arguments others) = parse? (arguments items) := by
  refine ⟨?_, fun hlen => ?_, fun others hpaths hvalues => ?_⟩
  · rw [parse?_arguments]
    by_cases hlen : 2 ≤ (paths items).length
    · rw [if_pos hlen]
      exact iff_of_true rfl hlen
    · rw [if_neg hlen]
      exact iff_of_false (Option.some_ne_none _) hlen
  · rw [parse?_arguments, if_neg (Nat.not_le_of_lt (Nat.lt_succ_of_le hlen))]
  · rw [parse?_arguments, parse?_arguments, hpaths, hvalues]

/-- Values that look like an option and like nothing at all, on both sides of a path. -/
def sampleItems : List Item :=
  [.separate .one "--report", .path "-" (by decide), .joined .two "", .separate .two "a=b.md"]

def samplePaths : List Item :=
  sampleItems ++ [.path "" (by decide)]

def sampleRespelled : List Item :=
  [.joined .two "--report", .joined .two "", .joined .one "a=b.md", .path "-" (by decide)]

theorem parse_arranged_sample :
    parse? ["-report", "--report", "-", "--report=", "--report", "a=b.md"] = some ⟨"-", "a=b.md"⟩ ∧
      parse? ["-report", "--report", "-", "--report=", "--report", "a=b.md", ""] = none ∧
      parse? ["--report=--report", "--report=", "-report=a=b.md", "-"] = some ⟨"-", "a=b.md"⟩ := by
  have hone := (parse_arranged sampleItems).2.1 (by decide)
  have hnone := (parse_arranged samplePaths).1.mpr (by decide)
  have hsame := (parse_arranged sampleItems).2.2 sampleRespelled rfl rfl
  exact ⟨hone, hnone, hsame.trans hone⟩

end ClassAudit.CheckArguments
