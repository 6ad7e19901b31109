import ClassAudit.Yaml.Place

/-! # Tokens of a YAML text

    Tokens are what the grammar of nodes is written in. Some have no characters of their own: the
    start and the end of a block collection come from the indentation, and the mark of a key is
    found only when the colon behind it is.
-/

namespace ClassAudit.Yaml

inductive ScalarStyle
  | plain
  | quoted
  | block
  deriving DecidableEq

inductive TokenKind
  | streamEnd
  | versionDirective (major minor : Nat)
  | tagDirective (handle uri : String)
  | documentStart
  | documentEnd
  | blockSequenceStart
  | blockMappingStart
  | blockEnd
  | flowSequenceStart
  | flowSequenceEnd
  | flowMappingStart
  | flowMappingEnd
  | blockEntry
  | flowEntry
  | key
  | value
  | alias (name : String)
  | anchor (name : String)
  | tag (handle suffix : String)
  | scalar (text : String) (style : ScalarStyle)
  deriving DecidableEq

/-- A token and the line it starts on, counted from 1. -/
structure Token where
  kind : TokenKind
  line : Nat

end ClassAudit.Yaml
