import ClassAudit.Text.Utf8

/-! # XML elements

    What is kept of a document: the elements with their local names, attributes and children.
-/

namespace ClassAudit.Xml

/-- An element. Names are without the part in front of a colon. -/
inductive Element
  | mk (name : String) (attributes : List (String × String)) (children : List Element)

namespace Element

def name : Element → String
  | mk name _ _ => name

def attributes : Element → List (String × String)
  | mk _ attributes _ => attributes

def children : Element → List Element
  | mk _ _ children => children

/-- The value of an attribute, the last of those with its name, and empty if there is none. -/
def value (e : Element) (name : String) : String :=
  (e.attributes.reverse.lookup name).getD ""

def named (e : Element) (name : String) : List Element :=
  e.children.filter (·.name == name)

def at2 (e : Element) (outer inner : String) : List Element :=
  (e.named outer).flatMap (·.named inner)

end Element

inductive XmlError
  | noElement
  | notWellFormed (problem : String)
  | version (version : List Text.Symbol)
  | encoding (encoding : List Text.Symbol)
  | wrongRoot (expected found : String)

end ClassAudit.Xml
