import ClassAudit.Check
import ClassAudit.Environment

/-! # What commands work with and leave behind -/

namespace ClassAudit

/-- What a command can use besides the files and its arguments. -/
structure Surroundings where
  environment : Environment.Variables
  now : Timestamp
  /-- Answers to questions, under the keys of their settings, or why there are none. -/
  ask : List Question → Except String (List (String × String))

/-- What a command leaves behind. -/
structure Outcome where
  tree : FileTree
  output : List String
  log : List String
  asked : List Question
  failure : Option Failure

namespace Outcome

def start (t : FileTree) : Outcome :=
  ⟨t, [], [], [], none⟩

def print (o : Outcome) (text : String) : Outcome :=
  { o with output := o.output ++ [text] }

def note (o : Outcome) (text : String) : Outcome :=
  { o with log := o.log ++ [text] }

def setTree (o : Outcome) (t : FileTree) : Outcome :=
  { o with tree := t }

def fail (o : Outcome) (e : Failure) : Outcome :=
  { o with failure := some e }

def outputText (o : Outcome) : String :=
  String.join (o.output.map (· ++ "\n"))

/-- An entry of the log. It ends with a line feed, which is added if the text has none at its
    end. -/
def logEntry (text : String) : String :=
  let line := "classguard: " ++ text
  if line.toList.getLast? == some '\n' then line else line ++ "\n"

def logText (o : Outcome) : String :=
  String.join (o.log.map logEntry)

end Outcome

end ClassAudit
