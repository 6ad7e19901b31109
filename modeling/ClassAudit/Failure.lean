import ClassAudit.Config.Basic
import ClassAudit.Files.Archive.Basic
import ClassAudit.Files.Basic
import ClassAudit.Import.Basic
import ClassAudit.Policy.Xml
import ClassAudit.Policy.Yaml

/-! # Failures

    Why an audit comes to no result, or to one that has to be reported as a failure. A failure has
    a cause, and contexts around it that say where it arose.
-/

namespace ClassAudit

inductive Failure
  | findings (title : String) (lines : List String)
  | found (command : String) (count : Nat)
  | file (e : FileError)
  | archive (e : ArchiveError)
  | malformed (e : Malformed)
  | descriptor (e : DescriptorError)
  | calls (e : CallError)
  | imports (e : ImportError)
  | policyYaml (e : PolicyYamlError)
  | policyXml (e : PolicyXmlError)
  | decoding (e : Yaml.DecodeError)
  | environment
  | setting (e : Config.SettingError)
  | classNotFound (name : String)
  | text (message : String)
  | classFile (path : String) (cause : Failure)
  | within (context : String) (cause : Failure)

namespace Failure

def message : Failure → String
  | .findings title lines => title ++ "\n" ++ "\n".intercalate lines
  | .found command count => command ++ ": " ++ toString count ++ " finding(s)"
  | .file e => e.message
  | .archive e => e.message
  | .malformed e => e.message
  | .descriptor e => e.message
  | .calls e => e.message
  | .imports e => e.message
  | .policyYaml e => e.message
  | .policyXml e => e.message
  | .decoding e => e.message
  | .environment => "unexpected character in variable name or unterminated quoted value"
  | .setting e => e.message
  | .classNotFound name => "hierarchy: class not found: " ++ name
  | .text message => message
  | .classFile path cause => "walk: read " ++ path ++ ": " ++ cause.message
  | .within context cause => context ++ ": " ++ cause.message

/-- The findings of a failure, and the failure itself if it is none of that. -/
def split : Option Failure → List String × Option Failure
  | some (.findings _ lines) => (lines, none)
  | other => ([], other)

/-- Findings under a title are a failure, unless there are none. -/
def ofFindings (title : String) : List String → Option Failure
  | [] => none
  | lines => some (.findings title lines)

end Failure

end ClassAudit
