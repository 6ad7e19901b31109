import ClassAudit.Policy.Basic
import ClassAudit.Yaml.Print

/-! # Policies in YAML

    A policy is a mapping with lists of rules and of groups. A rule covers the packages below its
    own unless it says otherwise. Keys that mean nothing are refused.
-/

namespace ClassAudit

open Yaml

/-! ### Reading -/

inductive PolicyYamlError
  | decoding (e : DecodeError)
  | conflict (c : Policy.Conflict)

def PolicyYamlError.message : PolicyYamlError → String
  | .decoding e => "policy: decode yaml: " ++ e.message
  | .conflict c => c.message

namespace Rule

def keys : List String :=
  ["package", "includeSubPackages", "comment"]

def fieldShape : Shape Rule :=
  { name := "policy.raw"
    strict := false
    fields :=
      [.of "package" readBytes fun s r => { r with package := s },
        .of "includeSubPackages" readBool fun b r => { r with includeSubPackages := b },
        .of "comment" readText fun s r => { r with comment := s }] }

/-- The first key of a mapping that no rule has. -/
def unknownKey? : Node → Option Node
  | .mapping _ _ entries => (entries.map Prod.fst).find? fun k => !keys.contains k.text
  | _ => none

def readWhole (d : Document) (target : Node) : Decode (Option Rule) := do
  if let some key := unknownKey? target then
    throw (.refused ("policy: line " ++ toString key.line ++ ": unknown rule key " ++
      Text.quote key.text))
  apart (fieldShape.read ⟨"", true, ""⟩ d target)

/-- A rule of a kind with a name. A mapping that is tagged as null has no fields. -/
def read (kind : String) : Decoder Rule := fun d node =>
  let shape : Shape Rule :=
    { name := "policy." ++ kind, strict := true, fields := [], whole := some (readWhole d) }
  shape.read ⟨"", false, ""⟩ d node

def readAll (kind : String) : Decoder (List Rule) :=
  readList ("[]policy." ++ kind) (read kind)

end Rule

namespace RuleGroup

def shape (kind : String) : Shape RuleGroup :=
  { name := "policy.Package[classguard/internal/policy." ++ kind ++ "]"
    strict := true
    fields :=
      [.of "name" readBytes fun s g => { g with name := s },
        .of "comment" readText fun s g => { g with comment := s },
        .of "dependencies" (Rule.readAll kind) fun rules g => { g with dependencies := rules }] }

def readAll (kind : String) : Decoder (List RuleGroup) :=
  readList ("[]" ++ (shape kind).name) ((shape kind).read ⟨"", "", []⟩)

end RuleGroup

namespace Policy

def shape : Shape Policy :=
  { name := "policy.Dependencies"
    strict := true
    fields :=
      [.of "alwaysAllowed" (Rule.readAll "DependsOn")
          fun rules p => { p with alwaysAllowed := rules },
        .of "alwaysForbidden" (Rule.readAll "NotDependsOn")
          fun rules p => { p with alwaysForbidden := rules },
        .of "allowed" (RuleGroup.readAll "DependsOn") fun groups p => { p with allowed := groups },
        .of "forbidden" (RuleGroup.readAll "NotDependsOn")
          fun groups p => { p with forbidden := groups }] }

def ofYaml (bytes : List UInt8) : Except PolicyYamlError Policy :=
  match decode (shape.read .empty) bytes with
  | .error e => .error (.decoding e)
  | .ok policy? =>
    let policy := policy?.getD .empty
    match policy.validate with
    | .ok () => .ok policy
    | .error c => .error (.conflict c)

end Policy

/-! ### Writing -/

/-- A field that is left out if its text is empty. -/
def Yaml.optionalText (name : String) (s : ByteString) : List (String × Value) :=
  if s.isEmpty then [] else [(name, .text s)]

/-- A field that is left out if its list is empty. -/
def Yaml.optionalList (name : String) (items : List Value) : List (String × Value) :=
  if items.isEmpty then [] else [(name, .list items)]

def Rule.value (r : Rule) : Value :=
  .record ([("package", .text r.package), ("includeSubPackages", .bool r.includeSubPackages)] ++
    optionalText "comment" r.comment)

def RuleGroup.value (g : RuleGroup) : Value :=
  .record ([("name", .text g.name)] ++ optionalText "comment" g.comment ++
    [("dependencies", .list (g.dependencies.map Rule.value))])

def Policy.fields (p : Policy) : List (String × Value) :=
  optionalList "alwaysAllowed" (p.alwaysAllowed.map Rule.value) ++
    optionalList "alwaysForbidden" (p.alwaysForbidden.map Rule.value) ++
    optionalList "allowed" (p.allowed.map RuleGroup.value) ++
    optionalList "forbidden" (p.forbidden.map RuleGroup.value)

def Policy.toYaml (p : Policy) : String :=
  printRecord 4 p.fields

end ClassAudit
