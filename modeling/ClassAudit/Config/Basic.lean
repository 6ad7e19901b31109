import ClassAudit.Call.Site
import ClassAudit.Text.Glob
import ClassAudit.Files.Path
import ClassAudit.Text.Split

/-! # Project configuration

    A project says where its compiled classes and their tests are, which policy its imports have
    to follow, which methods must not be called, and which classes are left out. Settings can be
    given one by one as texts.
-/

namespace ClassAudit

/-- A method that must not be called, as it is written in a project. -/
structure ForbiddenCall where
  className : ByteString
  signature : ByteString
  deriving DecidableEq

/-- The method that a forbidden call names, if it is written as text. -/
def ForbiddenCall.target? (call : ForbiddenCall) : Option CallTarget := do
  return .ofText (← call.className.text?) (← call.signature.text?)

structure Config where
  classes : List Path
  testClasses : Path
  policy : Path
  forbiddenCalls : List ForbiddenCall
  coverageSuffix : ByteString
  coverageExclude : List ByteString
  /-- Patterns for the class files that are left out. -/
  exclude : List ByteString

namespace Config

def empty : Config :=
  ⟨[], "", "", [], "", [], []⟩

def targets (c : Config) : List CallTarget :=
  c.forbiddenCalls.map fun call => .ofText call.className.shown call.signature.shown

/-- The methods to look for, if there are any. One that is not written as text is no method of a
    class. -/
def targetSet (c : Config) : Except CallError TargetSet :=
  if c.forbiddenCalls.isEmpty then .error .noTargets
  else .ok ⟨c.forbiddenCalls.filterMap ForbiddenCall.target?⟩

/-! ### Settings -/

inductive Setting
  | classes
  | testClasses
  | policy
  | forbiddenCalls
  | coverageSuffix
  deriving DecidableEq

def Setting.key : Setting → String
  | .classes => "classes"
  | .testClasses => "testClasses"
  | .policy => "policy"
  | .forbiddenCalls => "forbiddenCalls"
  | .coverageSuffix => "coverage.suffix"

def Setting.ofKey? (key : String) : Option Setting :=
  [classes, testClasses, policy, forbiddenCalls, coverageSuffix].find? (·.key == key)

inductive SettingError
  | unknownKey (key : String)
  | badCall (entry : String)

def SettingError.message : SettingError → String
  | .unknownKey key => "config: unknown setting " ++ Text.quote key
  | .badCall entry =>
    "config: forbidden call " ++ Text.quote entry ++ ": want Class#signature"

/-- The parts of a list with commas, without white space and empty parts. -/
def listOf (text : ByteString) : List ByteString :=
  ((text.split comma).map ByteString.trim).filter (!·.isEmpty)
where
  comma : UInt8 := 0x2c

/-- A forbidden call, written as a class, a hash sign and a signature. -/
def callOf? (entry : String) : Option ForbiddenCall :=
  let cs := entry.toList
  if cs.contains '#' then
    let className := Text.trim (String.ofList (cs.takeWhile (· != '#')))
    let signature := Text.trim (String.ofList ((cs.dropWhile (· != '#')).drop 1))
    if className = "" ∨ signature = "" then none else some ⟨className, signature⟩
  else none

/-- Adds forbidden calls up to the first entry that is none. -/
def addCalls : List String → Config → Config × Option SettingError
  | [], c => (c, none)
  | entry :: entries, c =>
    match callOf? entry with
    | none => (c, some (.badCall entry))
    | some call => addCalls entries { c with forbiddenCalls := c.forbiddenCalls ++ [call] }

/-- The entries of a list with semicolons, without white space and empty entries. -/
def entriesOf (text : String) : List String :=
  ((Text.split ';' text).map Text.trim).filter (· ≠ "")

/-- Makes a setting from a text. An empty text changes nothing. Of the forbidden calls, those in
    front of a bad entry are kept. -/
def set (c : Config) (key text : String) : Config × Option SettingError :=
  let value := Text.trim text
  if value = "" then (c, none)
  else
    match Setting.ofKey? key with
    | some .classes => ({ c with classes := listOf value }, none)
    | some .testClasses => ({ c with testClasses := value }, none)
    | some .policy => ({ c with policy := value }, none)
    | some .coverageSuffix => ({ c with coverageSuffix := value }, none)
    | some .forbiddenCalls => addCalls (entriesOf value) c
    | none => (c, some (.unknownKey key))

/-! ### Classes that are left out -/

/-- Whether a pattern covers a path. One that ends with two stars covers all paths below. -/
def patternCovers (pattern path : ByteString) : Bool :=
  if pattern.endsWith "/**" then path.startsWith ⟨pattern.bytes.take (pattern.length - 2)⟩
  else Text.globMatches pattern.bytes path.bytes

/-- Whether the class with a name is left out. Patterns may start at the place itself. -/
def excludes (c : Config) (name : String) : Bool :=
  c.exclude.any fun pattern => patternCovers (pattern.dropStart "./") (name ++ ".class")

end Config

end ClassAudit
