/-! # Bounded caches

    A cache of a fixed size. What has been asked for or added last is kept longest.
-/

namespace ClassAudit

/-- A cache of at most `size` values by name, the latest first. -/
structure Cache (α : Type) where
  size : Nat
  entries : List (String × α)

namespace Cache

variable {α : Type}

def empty (size : Nat) : Cache α :=
  ⟨size, []⟩

def get? (c : Cache α) (name : String) : Option (α × Cache α) :=
  match c.entries.lookup name with
  | some a => some (a, { c with entries := (name, a) :: c.entries.filter (·.1 ≠ name) })
  | none => none

/-- The cache with a value, which becomes the latest. The oldest is dropped if the cache is
    full. -/
def add (c : Cache α) (name : String) (a : α) : Cache α :=
  { c with entries := ((name, a) :: c.entries.filter (·.1 ≠ name)).take c.size }

end Cache

end ClassAudit
