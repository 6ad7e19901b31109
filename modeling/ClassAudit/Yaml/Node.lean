/-! # Nodes of a YAML document

    A document is a tree of scalars, sequences and mappings, in which a node with a name may
    stand again as an alias. Aliases refer to a table of the named nodes of the document, so that
    a node can contain an alias of itself.
-/

namespace ClassAudit.Yaml

/-- A node, with the line it starts on and its tag. Tags of the standard are in their short form,
    such as `!!str`. -/
inductive Node
  | scalar (line : Nat) (tag text : String)
  | sequence (line : Nat) (tag : String) (items : List Node)
  | mapping (line : Nat) (tag : String) (entries : List (Node × Node))
  /-- A repetition of the node with a number in the table of named nodes. The aliases of a document
      are numbered as well. -/
  | alias (line : Nat) (name : String) (number target : Nat)

namespace Node

def line : Node → Nat
  | .scalar line .. | .sequence line .. | .mapping line .. | .alias line .. => line

def tag : Node → String
  | .scalar _ tag _ | .sequence _ tag _ | .mapping _ tag _ => tag
  | .alias .. => ""

def text : Node → String
  | .scalar _ _ text => text
  | .alias _ name .. => name
  | _ => ""

def sameKind : Node → Node → Bool
  | .scalar .., .scalar .. | .sequence .., .sequence .. | .mapping .., .mapping ..
  | .alias .., .alias .. => true
  | _, _ => false

def isMapping : Node → Bool
  | .mapping .. => true
  | _ => false

/-- The null that stands where nothing is written. -/
def null (line : Nat) : Node :=
  .scalar line "!!null" ""

end Node

structure Document where
  root : Node
  named : List (Nat × Node)
  aliases : Nat
  /-- A bound on how many nodes lie inside each other. -/
  depth : Nat

namespace Document

def resolve (d : Document) : Node → Node
  | .alias line _ _ target => (d.named.lookup target).getD (.null line)
  | node => node

/-- A bound on how many nodes lie inside each other if each alias stands for what it repeats, and no
    alias lies inside itself. -/
def reach (d : Document) : Nat :=
  3 * (d.aliases + 1) * (d.depth + 1)

end Document

end ClassAudit.Yaml
