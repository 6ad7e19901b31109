import ClassAudit.Policy.Basic
import ClassAudit.Text.Quoted
import ClassAudit.Xml.Parse

/-! # Policies in XML

    The root element `dependencies` holds sections with rules and with groups of rules. A rule
    names its package, and perhaps a flag and a comment, in attributes.
-/

namespace ClassAudit

open Xml

inductive PolicyXmlError
  | reading (e : XmlError)
  | flag (place package value : String)
  | conflict (c : Policy.Conflict)

def Xml.XmlError.message : XmlError → String
  | .noElement => "EOF"
  | .notWellFormed problem => "XML syntax error: " ++ problem
  | .version v =>
    "xml: unsupported version " ++ Text.quoteSymbols v ++ "; only version 1.0 is supported"
  | .encoding e =>
    "xml: encoding " ++ Text.quoteSymbols e ++ " declared but Decoder.CharsetReader is nil"
  | .wrongRoot expected found =>
    "expected element type <" ++ expected ++ "> but have <" ++ found ++ ">"

def PolicyXmlError.message : PolicyXmlError → String
  | .reading e => "policy: decode xml: " ++ e.message
  | .flag place package value =>
    "policy: " ++ place ++ ": package " ++ package ++
      ": includeSubPackages: strconv.ParseBool: parsing " ++ Text.quote value ++
      ": invalid syntax"
  | .conflict c => c.message

def truthValue? : String → Option Bool
  | "1" | "t" | "T" | "TRUE" | "true" | "True" => some true
  | "0" | "f" | "F" | "FALSE" | "false" | "False" => some false
  | _ => none

def Rule.ofElement (place : String) (e : Element) : Except PolicyXmlError Rule :=
  let package := e.value "package"
  let comment := e.value "comment"
  match e.value "includeSubPackages" with
  | "" => .ok ⟨package, true, comment⟩
  | value =>
    match truthValue? value with
    | some b => .ok ⟨package, b, comment⟩
    | none => .error (.flag place package value)

/-- The group of an element in a section, with rules of one name. -/
def RuleGroup.ofElement (place rule : String) (e : Element) :
    Except PolicyXmlError RuleGroup := do
  let rules ← (e.named rule).mapM (Rule.ofElement place)
  return ⟨e.value "name", e.value "comment", rules⟩

namespace Policy

def ofElement (root : Element) : Except PolicyXmlError Policy := do
  let alwaysAllowed ←
    (root.at2 "alwaysAllowed" "dependsOn").mapM (Rule.ofElement "alwaysAllowed")
  let alwaysForbidden ←
    (root.at2 "alwaysForbidden" "notDependsOn").mapM (Rule.ofElement "alwaysForbidden")
  let allowed ←
    (root.at2 "allowed" "package").mapM (RuleGroup.ofElement "allowed" "dependsOn")
  let forbidden ←
    (root.at2 "forbidden" "package").mapM (RuleGroup.ofElement "forbidden" "notDependsOn")
  return ⟨alwaysAllowed, alwaysForbidden, allowed, forbidden⟩

def ofXml (bytes : List UInt8) : Except PolicyXmlError Policy :=
  match Xml.parse "dependencies" bytes with
  | .error e => .error (.reading e)
  | .ok root => do
    let policy ← ofElement root
    match policy.validate with
    | .ok () => return policy
    | .error c => throw (.conflict c)

end Policy

end ClassAudit
