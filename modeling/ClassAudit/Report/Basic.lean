import ClassAudit.Yaml.Print

/-! # Reports

    A report is a Markdown document with the findings of a check as bullets. It opens with a
    summary in YAML between lines of three dashes.
-/

namespace ClassAudit

open Yaml

structure Summary where
  check : String
  findings : Int
  generatedAt : Timestamp

structure Report where
  summary : Summary
  lines : List String

inductive ReportError
  | noOpening
  | noClosing
  | summary (e : DecodeError)

def ReportError.message : ReportError → String
  | .noOpening => "report: missing opening --- delimiter"
  | .noClosing => "report: missing closing --- delimiter"
  | .summary e => "report: unmarshal summary: " ++ e.message

namespace Summary

def empty : Summary :=
  ⟨"", 0, .zero⟩

def fields (s : Summary) : List (String × Value) :=
  [("check", .text s.check), ("findings", .int s.findings), ("generated_at", .time s.generatedAt)]

def shape : Shape Summary :=
  { name := "report.Summary"
    strict := false
    fields :=
      [.of "check" readText fun c s => { s with check := c },
        .of "findings" readInt fun n s => { s with findings := n },
        .of "generated_at" readTime fun t s => { s with generatedAt := t }] }

end Summary

namespace Report

/-- The line around a summary. -/
def delimiter : String := "---\n"

/-! ### Writing -/

def text (r : Report) : String :=
  let bullets := if r.lines.isEmpty then ["No findings.\n"]
    else r.lines.map fun line => "- " ++ line ++ "\n"
  delimiter ++ printRecord 2 r.summary.fields ++ delimiter ++
    "# " ++ r.summary.check ++ "\n\n" ++ String.join bullets

/-! ### Reading -/

def lineFeed : UInt8 := 10

/-- What stands before a line of three dashes, without the line feed in front of it, and after it.
    What has been read so far is kept from its end. -/
def cut : List UInt8 → List UInt8 → Option (List UInt8 × List UInt8)
  | _, [] => none
  | before, b :: bytes =>
    let line := Text.utf8 delimiter
    if b = lineFeed ∧ line.isPrefixOf bytes then some (before.reverse, bytes.drop line.length)
    else cut (b :: before) bytes

def bullet? (line : List UInt8) : Option String :=
  let mark := Text.utf8 "- "
  if mark.isPrefixOf line then some (Text.ofUtf8Lossy (line.drop mark.length)) else none

/-- The lines of a text, without their line feeds. -/
def linesOf : List UInt8 → List (List UInt8)
  | [] => []
  | [b] => if b = lineFeed then [[]] else [[b]]
  | b :: c :: bytes =>
    if b = lineFeed then [] :: linesOf (c :: bytes)
    else
      match linesOf (c :: bytes) with
      | [] => [[b]]
      | line :: lines => (b :: line) :: lines

/-- The report of a document. The lines of the summary are counted from an empty one in front,
    unless the summary is empty. -/
def parse (bytes : List UInt8) : Except ReportError Report :=
  let line := Text.utf8 delimiter
  if line.isPrefixOf bytes then
    match cut [] (lineFeed :: bytes.drop line.length) with
    | none => .error .noClosing
    | some (summary, body) =>
      match decode (Summary.shape.read .empty) summary with
      | .error e => .error (.summary e)
      | .ok s => .ok ⟨s.getD .empty, (linesOf body).filterMap bullet?⟩
  else .error .noOpening

end Report

end ClassAudit
