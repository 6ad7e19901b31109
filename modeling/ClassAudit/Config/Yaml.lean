import ClassAudit.Config.Basic
import ClassAudit.Policy.Yaml

/-! # Configurations in YAML

    The project file. Keys that mean nothing are skipped. Settings that are empty are not
    written, except for the list of classes.
-/

namespace ClassAudit

open Yaml

def ForbiddenCall.shape : Shape ForbiddenCall :=
  { name := "config.CallTarget"
    strict := false
    fields :=
      [.of "class" readBytes fun s c => { c with className := s },
        .of "signature" readBytes fun s c => { c with signature := s }] }

namespace Config

def readTexts : Decoder (List ByteString) :=
  readList "[]string" readBytes

def coverageShape : Shape Config :=
  { name := "config.Coverage"
    strict := false
    fields :=
      [.of "suffix" readBytes fun s c => { c with coverageSuffix := s },
        .of "exclude" readTexts fun l c => { c with coverageExclude := l }] }

def shape : Shape Config :=
  { name := "config.Config"
    strict := false
    fields :=
      [.of "classes" readTexts fun l c => { c with classes := l },
        .of "testClasses" readBytes fun s c => { c with testClasses := s },
        .of "policy" readBytes fun s c => { c with policy := s },
        .of "forbiddenCalls" (readList "[]config.CallTarget" (ForbiddenCall.shape.read ⟨"", ""⟩))
          fun l c => { c with forbiddenCalls := l },
        ⟨"coverage", fun d node c => do return (← coverageShape.read c d node).getD c⟩,
        .of "exclude" readTexts fun l c => { c with exclude := l }] }

def ofYaml (bytes : List UInt8) : Except DecodeError Config := do
  return (← decode (shape.read .empty) bytes).getD .empty

def texts (l : List ByteString) : List Value :=
  l.map .text

def callValue (call : ForbiddenCall) : Value :=
  .record [("class", .text call.className), ("signature", .text call.signature)]

def coverageField (c : Config) : List (String × Value) :=
  match optionalText "suffix" c.coverageSuffix ++
      optionalList "exclude" (texts c.coverageExclude) with
  | [] => []
  | fields => [("coverage", .record fields)]

def fields (c : Config) : List (String × Value) :=
  [("classes", .list (texts c.classes))] ++ optionalText "testClasses" c.testClasses ++
    optionalText "policy" c.policy ++
    optionalList "forbiddenCalls" (c.forbiddenCalls.map callValue) ++ c.coverageField ++
    optionalList "exclude" (texts c.exclude)

def toYaml (c : Config) : String :=
  printRecord 4 c.fields

end Config

end ClassAudit
