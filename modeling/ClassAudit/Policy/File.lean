import ClassAudit.Failure
import ClassAudit.Files.Tree
import ClassAudit.Text.LowerCase

/-! # Policy files

    The extension of a policy file says in which format it is written.
-/

namespace ClassAudit

namespace Policy

inductive Format
  | yaml
  | xml
  deriving DecidableEq

def extensionOf (path : Path) : String :=
  Text.lowerCase path.extension.shown

def Format.ofExtension? : String → Option Format
  | ".yaml" | ".yml" => some .yaml
  | ".xml" => some .xml
  | _ => none

def ofBytes (bytes : List UInt8) : Format → Except Failure Policy
  | .yaml => (ofYaml bytes).mapError .policyYaml
  | .xml => (ofXml bytes).mapError .policyXml

/-- What is wrong with a file of some format that can be opened and not be read. -/
def unreadable (e : FileError) : Format → Failure
  | .yaml => .policyYaml (.decoding (.input e.message))
  | .xml => .within "policy: decode xml" (.file e)

def load (t : FileTree) (path : Path) : Except Failure Policy :=
  match t.look "open" true path with
  | .error e => .error (.within "policy" (.file e))
  | .ok _ =>
    match Format.ofExtension? (extensionOf path) with
    | none =>
      .error (.text ("policy: unsupported file extension " ++ Text.quote (extensionOf path)))
    | some format =>
      match t.read path with
      | .error e => .error (unreadable e format)
      | .ok bytes => ofBytes bytes format

end Policy

end ClassAudit
