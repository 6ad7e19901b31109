import ClassAudit.Text.ByteString

/-! # Dependency policies

    A policy says which packages the classes of a package may import. A rule covers a package,
    and by default all packages below it. Groups of rules apply to the classes of one package:
    those of an allowing group may import only what its rules cover, those of a forbidding group
    anything but that. Some rules hold for all classes.
-/

namespace ClassAudit

/-- A package that an entry of a policy speaks of. -/
structure Rule where
  package : ByteString
  includeSubPackages : Bool
  comment : String

namespace Rule

def allow (package : ByteString) : Rule :=
  ⟨package, true, ""⟩

/-- A rule with a comment for a package and all packages below it. -/
def deny (package : ByteString) (comment : String) : Rule :=
  ⟨package, true, comment⟩

/-- Whether a rule covers a package. A package lies below another if its name goes on with a
    dot. -/
def covers (r : Rule) (package : ByteString) : Bool :=
  package == r.package || r.includeSubPackages && package.startsWith (r.package ++ separator)
where
  separator : ByteString := "."

/-- The rule with the longer package name among the one chosen so far and a further one, which
    counts only if it covers a package. Of two equally long ones the former stays. -/
def longer (package : ByteString) (best : Option Rule) (r : Rule) : Option Rule :=
  if r.covers package then
    match best with
    | none => some r
    | some b => if b.package.length < r.package.length then some r else some b
  else best

/-- The covering rule with the longest package name, the first of those of equal length. -/
def best? (rules : List Rule) (package : ByteString) : Option Rule :=
  rules.foldl (longer package) none

end Rule

structure RuleGroup where
  name : ByteString
  comment : String
  dependencies : List Rule

def RuleGroup.find? (groups : List RuleGroup) (package : ByteString) : Option RuleGroup :=
  List.find? (fun g => g.name == package) groups

structure Policy where
  /-- What all classes may import. -/
  alwaysAllowed : List Rule
  /-- What classes without an allowing group must not import. -/
  alwaysForbidden : List Rule
  /-- Groups whose classes may import only what the rules cover. -/
  allowed : List RuleGroup
  forbidden : List RuleGroup

namespace Policy

def empty : Policy :=
  ⟨[], [], [], []⟩

/-- The packages that have a group of both kinds, in increasing order. -/
def conflicts (p : Policy) : SortedSet ByteString :=
  .ofList ((p.forbidden.map RuleGroup.name).filter fun name =>
    p.allowed.any fun g => g.name == name)

/-- A policy with a group of both kinds for some packages. -/
structure Conflict where
  packages : List ByteString

def Conflict.message (c : Conflict) : String :=
  "policy: packages both allowed and forbidden: " ++ ", ".intercalate (c.packages.map ByteString.shown)

/-- A policy must not have groups of both kinds for one package. -/
def validate (p : Policy) : Except Conflict Unit :=
  match p.conflicts.toList with
  | [] => .ok ()
  | packages => .error ⟨packages⟩

end Policy

end ClassAudit
