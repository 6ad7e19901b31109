import ClassAudit.Import.Basic
import ClassAudit.Policy.Basic

/-! # Violations of a policy

    Which imports of a class a policy does not permit. Imports of the class's own package, of the
    language's package and of what is always allowed are never violations.
-/

namespace ClassAudit

/-- An import that a policy does not permit. -/
structure Violation where
  className : String
  package : String
  comment : String

/-- The text of a violation, with its comment in brackets if there is one. -/
def Violation.text (v : Violation) : String :=
  v.className ++ " => " ++ v.package ++ if v.comment = "" then "" else " [" ++ v.comment ++ "]"

namespace Policy

/-- The rule that covers the package of the language and the packages below it. -/
def languageRule : Rule :=
  .allow "java.lang"

def isAlwaysAllowed (p : Policy) (package : String) : Bool :=
  languageRule.covers package || (Rule.best? p.alwaysAllowed package).isSome

/-- The comment on an import that is not permitted to the classes of a package, or nothing if it
    is permitted. An allowing group decides alone; a forbidding group is asked after the rules
    that hold for all classes, and gives its own comment where a rule has none. -/
def objection? (p : Policy) (home package : String) : Option String :=
  match RuleGroup.find? p.allowed home with
  | some group =>
    match Rule.best? group.dependencies package with
    | some _ => none
    | none => some group.comment
  | none =>
    match Rule.best? p.alwaysForbidden package with
    | some r => some r.comment
    | none =>
      match RuleGroup.find? p.forbidden home with
      | none => none
      | some group =>
        (Rule.best? group.dependencies package).map fun r =>
          if r.comment = "" then group.comment else r.comment

def violation? (p : Policy) (c : ClassImports) (package : String) : Option Violation :=
  if package == c.package || p.isAlwaysAllowed package then none
  else (p.objection? c.package package).map fun comment => ⟨c.className, package, comment⟩

def classViolations (p : Policy) (c : ClassImports) : List Violation :=
  c.imports.toList.filterMap (p.violation? c)

def violations (p : Policy) (classes : List ClassImports) : List Violation :=
  classes.flatMap p.classViolations

end Policy

end ClassAudit
