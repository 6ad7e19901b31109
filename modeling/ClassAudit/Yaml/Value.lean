import ClassAudit.Text.ByteString
import ClassAudit.Timestamp

/-! # Values to be written

    What is written as a document: texts, truth values, numbers and points in time, in lists and
    in records with named fields.
-/

namespace ClassAudit.Yaml

inductive Value
  | text (s : ByteString)
  | bool (b : Bool)
  | int (n : Int)
  | time (t : Timestamp)
  | list (items : List Value)
  | record (fields : List (String × Value))

end ClassAudit.Yaml
