import ClassAudit.ClassFile.Basic

/-! # Collectors

    A collector runs an analysis on one class after the other and keeps the results in order. A
    class on which the analysis fails adds nothing.
-/

namespace ClassAudit

/-- The results collected so far, of an analysis that gives a list for each class. -/
structure Collector (ε α : Type) where
  analysis : ClassFile → Except ε (List α)
  results : List α

namespace Collector

variable {ε α : Type}

def new (analysis : ClassFile → Except ε (List α)) : Collector ε α :=
  ⟨analysis, []⟩

def visit (c : Collector ε α) (cf : ClassFile) : Except ε (Collector ε α) :=
  (c.analysis cf).map fun found => { c with results := c.results ++ found }

def clear (c : Collector ε α) : Collector ε α :=
  { c with results := [] }

inductive Action where
  | visit (cf : ClassFile)
  | clear

/-- The collector after an action; a visit that fails leaves it as it was. -/
def perform (c : Collector ε α) : Action → Collector ε α
  | .visit cf =>
    match c.visit cf with
    | .ok c' => c'
    | .error _ => c
  | .clear => c.clear

end Collector

end ClassAudit
