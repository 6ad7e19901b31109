import ClassAudit.Text.Base64
import ClassAudit.Text.Quoted
import ClassAudit.Yaml.Node.Read

/-! # Decoding documents

    A decoder turns a node into a value of a type. A node of the wrong kind is noted as a problem
    and the value keeps its default, so that all problems of a document are reported together, in
    the order of the document. A null leaves a value as it is, and is dropped from a list.

    A mapping is decoded by the fields of a shape. With the key `<<` it takes further fields from
    other mappings, where its own come first.

    A document that consists of repetitions for the most part is refused, once it has become large.
-/

namespace ClassAudit.Yaml

/-! ### Problems -/

inductive TypeProblem
  | mismatch (line : Nat) (tag text : String) (target : String)
  | duplicateKey (line : Nat) (key : String) (first : Nat)
  | unknownField (line : Nat) (key : String) (target : String)
  | repeatedField (line : Nat) (key : String) (target : String)

namespace TypeProblem

/-- The text of a scalar in a problem: its first seven bytes if it has more than ten. A byte of a
    character that is cut apart shows as a replacement character. -/
def excerpt (text : String) : String :=
  let bytes := Text.utf8 text
  if bytes.length ≤ 10 then text else Text.ofUtf8Lossy (bytes.take 7) ++ "..."

def text : TypeProblem → String
  | .mismatch line tag text target =>
    let shown := if tag = "!!seq" ∨ tag = "!!map" then text else " `" ++ excerpt text ++ "`"
    "line " ++ toString line ++ ": cannot unmarshal " ++ tag ++ shown ++ " into " ++ target
  | .duplicateKey line key first =>
    "line " ++ toString line ++ ": mapping key " ++ Text.quote key ++
      " already defined at line " ++ toString first
  | .unknownField line key target =>
    "line " ++ toString line ++ ": field " ++ key ++ " not found in type " ++ target
  | .repeatedField line key target =>
    "line " ++ toString line ++ ": field " ++ key ++ " already set in type " ++ target

end TypeProblem

inductive DecodeError
  | malformed (e : SyntaxError)
  /-- A node contradicts its tag, or contains itself, or is repeated too often, or is merged and no
      mapping. -/
  | contradiction (problem : String)
  | types (problems : List TypeProblem)
  | time (text : String)
  /-- A document that the decoded type refuses. -/
  | refused (message : String)
  /-- A text that cannot be had. -/
  | input (problem : String)

namespace DecodeError

def message : DecodeError → String
  | .malformed e => e.message
  | .contradiction problem => "yaml: " ++ problem
  | .types problems =>
    "yaml: unmarshal errors:" ++ String.join (problems.map fun p => "\n  " ++ p.text)
  | .time text => "parsing time " ++ Text.quote text
  | .refused message => message
  | .input problem => "yaml: input error: " ++ problem

end DecodeError

/-! ### Decoders -/

structure Progress where
  problems : List TypeProblem
  /-- The number of nodes that have been decoded. An alias counts as well as what it repeats. -/
  nodes : Nat
  /-- The number of those below an alias. -/
  repeated : Nat
  /-- The aliases around the present node, from the inside. -/
  aliases : List Nat

abbrev Decode := StateT Progress (Except DecodeError)

/-- A decoder of nodes. It gives nothing for a null, and for a node that is not of its type. -/
abbrev Decoder (α : Type) := Document → Node → Decode (Option α)

namespace Progress

def start : Progress :=
  ⟨[], 0, 0, []⟩

/-- The part of the nodes that may be repetitions, in units of `1 / scale`. It falls from 99 to 10 of
    a hundred while their number goes from 400000 to 4000000. -/
def allowedPart (nodes : Nat) : Nat :=
  if nodes ≤ 400000 then 356400000
  else if 4000000 ≤ nodes then 36000000
  else 356400000 - 89 * (nodes - 400000)
where
  scale : Nat := 360000000

def isExcessive (s : Progress) : Bool :=
  100 < s.repeated && 1000 < s.nodes &&
    s.nodes * allowedPart s.nodes < s.repeated * allowedPart.scale

end Progress

def noteAll (problems : List TypeProblem) : Decode Unit :=
  modify fun s => { s with problems := s.problems ++ problems }

def note (p : TypeProblem) : Decode Unit :=
  noteAll [p]

def mismatch {α : Type} (node : Node) (target : String) : Decode (Option α) := do
  note (.mismatch node.line node.tag node.text target)
  return none

def count : Decode Unit := do
  let s ← get
  let s := { s with
    nodes := s.nodes + 1, repeated := if s.aliases.isEmpty then s.repeated else s.repeated + 1 }
  if s.isExcessive then throw (.contradiction "document contains excessive aliasing")
  set s

def visit {α : Type} (d : Document) (node : Node) (f : Node → Decode α) : Decode α := do
  count
  match node with
  | .alias _ name number _ =>
    let s ← get
    if s.aliases.contains number then
      throw (.contradiction ("anchor '" ++ name ++ "' value contains itself"))
    set { s with aliases := number :: s.aliases }
    count
    let a ← f (d.resolve node)
    modify fun t => { t with aliases := s.aliases }
    return a
  | node => f node

/-- Decodes apart from what has been decoded so far. Where there are problems, nothing is given. -/
def apart {α : Type} (decoder : Decode (Option α)) : Decode (Option α) := do
  match decoder.run .start with
  | .error e => throw e
  | .ok (a, s) =>
    noteAll s.problems
    return if s.problems.isEmpty then a else none

/-! ### Scalars -/

def knownTags : List String :=
  ["!!bool", "!!int", "!!float", "!!null", "!!timestamp"]

/-- What a scalar with a tag stands for. A tag of an unknown kind makes it a text. -/
def scalarValue (tag text : String) : Except DecodeError ScalarValue :=
  if tag = "!!binary" then
    match Text.base64? text with
    | some bytes => .ok (.text ⟨bytes⟩)
    | none => .error (.contradiction "!!binary value contains invalid base64 data")
  else if knownTags.contains tag then
    let value := implicitValue (tag = "!!timestamp") text
    if value.tag = tag then .ok value
    else
      match value with
      | .int n =>
        if tag = "!!float" ∧ n < 0x8000000000000000 then .ok (.float (.finite (Double.ofInt n)))
        else contradiction value
      | _ => contradiction value
  else .ok (.text text)
where
  contradiction (value : ScalarValue) : Except DecodeError ScalarValue :=
    .error (.contradiction
      ("cannot decode " ++ value.tag ++ " `" ++ text ++ "` as a " ++ tag))

/-- Whether no two keys of a mapping are equal. Those that are get noted. -/
def distinctKeys (entries : List (Node × Node)) : Decode Bool := do
  let problems := go (entries.map Prod.fst)
  noteAll problems
  return problems.isEmpty
where
  go : List Node → List TypeProblem
    | [] => []
    | key :: keys =>
      (keys.filter fun k => key.sameKind k && key.text == k.text).map
        (fun k => .duplicateKey k.line k.text key.line) ++ go keys

/-- Notes a mapping as of the wrong type, unless its keys are a problem already. -/
def mismatchedMapping {α : Type} (line : Nat) (tag : String) (entries : List (Node × Node))
    (target : String) : Decode (Option α) := do
  if ← distinctKeys entries then mismatch (.mapping line tag []) target else return none

/-- Decodes a scalar by its value, and notes all other nodes as of the wrong type. A null gives
    nothing. -/
def ofScalar {α : Type} (target : String) (f : String → ScalarValue → Decode (Option α)) :
    Decoder α := fun d node =>
  visit d node fun
    | .scalar line tag text => do
      match ← scalarValue tag text with
      | .null => return none
      | value =>
        match ← f text value with
        | some a => return some a
        | none => mismatch (.scalar line tag text) target
    | .mapping line tag entries => mismatchedMapping line tag entries target
    | other => mismatch other target

/-- A text is the source text of any scalar, or what its bytes say. -/
def readBytes : Decoder ByteString :=
  ofScalar "string" fun text value =>
    match value with
    | .text s => return some s
    | _ => return some (text : ByteString)

def readText : Decoder String := fun d node => do
  return (← readBytes d node).map ByteString.shown

/-- The words that count as true and false where a truth value is wanted. -/
def wordBool? : String → Option Bool
  | "y" | "Y" | "yes" | "Yes" | "YES" | "on" | "On" | "ON" => some true
  | "n" | "N" | "no" | "No" | "NO" | "off" | "Off" | "OFF" => some false
  | _ => none

def readBool : Decoder Bool :=
  ofScalar "bool" fun _ value =>
    match value with
    | .bool b => return some b
    | .text s => return wordBool? s.shown
    | _ => return none

/-- The whole part of a number as a signed number of 64 bits. What lies outside becomes the least
    of these, unless it is larger than `2 ^ 63`. -/
def int64OfFloat? : FloatValue → Option Int
  | .nan => none
  | .infinite negative => if negative then some (-0x8000000000000000) else none
  | .finite x =>
    let n := x.truncate
    if 0x8000000000000000 < n then none
    else if n = 0x8000000000000000 ∨ n < -0x8000000000000000 then some (-0x8000000000000000)
    else some n

def readInt : Decoder Int :=
  ofScalar "int" fun _ value =>
    match value with
    | .int n => return if n < 0x8000000000000000 then some n else none
    | .float x => return int64OfFloat? x
    | _ => return none

/-! ### Lists -/

/-- A list of what an item decoder gives. A null stands for the empty list. -/
def readList {α : Type} (target : String) (item : Decoder α) : Decoder (List α) := fun d node =>
  visit d node fun
    | .sequence _ _ items => do return some ((← items.mapM (item d)).filterMap id)
    | .scalar line tag text => do
      match ← scalarValue tag text with
      | .null => return some []
      | _ => mismatch (.scalar line tag text) target
    | .mapping line tag entries => mismatchedMapping line tag entries target
    | other => mismatch other target

/-! ### Merging -/

def isMergeKey : Node → Bool
  | .scalar _ tag text => text == "<<" && tag == "!!merge"
  | _ => false

def mergedValue? (entries : List (Node × Node)) : Option Node :=
  ((entries.filter fun e => isMergeKey e.1).getLast?).map Prod.snd

/-- Goes on with each mapping that a merged value stands for. -/
def forMerged {τ : Type} (d : Document) (value : Node) (f : Node → τ → Decode τ) (t : τ) :
    Decode τ :=
  match value with
  | .sequence _ _ items => items.foldlM one t
  | node => one t node
where
  one (t : τ) (node : Node) : Decode τ :=
    if (d.resolve node).isMapping then visit d node (f · t)
    else throw (.contradiction "map merge requires map or sequence of maps as the value")

inductive Untyped
  | scalar (v : ScalarValue)
  | collection

/-- The keys that a mapping need not be asked for, because others come first. -/
abbrev Taken := List ScalarValue

def Taken.holds (taken : Taken) (key : ScalarValue) : Bool :=
  taken.any (·.equals key)

def hasTextKeys (d : Document) (entries : List (Node × Node)) : Bool :=
  entries.all fun e =>
    let tag := (d.resolve e.1).tag
    tag == "!!str" || tag == "!!merge"

mutual

def readUntyped : Nat → Decoder Untyped
  | 0, _, _ => throw (.contradiction "value contains itself")
  | fuel + 1, d, node =>
    visit d node fun
      | .scalar _ tag text => do return some (.scalar (← scalarValue tag text))
      | .sequence _ _ items => do
        items.forM fun item => do let _ ← readUntyped fuel d item
        return some .collection
      | .mapping _ _ entries => do
        if ← distinctKeys entries then
          let _ ← readUntypedEntries fuel d (hasTextKeys d entries) entries none
          return some .collection
        else return none
      | .alias .. => return none

/-- Decodes the entries of a mapping without knowing their types, where the keys may have to be
    texts. -/
def readUntypedEntries : Nat → Document → Bool → List (Node × Node) → Option Taken →
    Decode (Option Taken)
  | 0, _, _, _, _ => throw (.contradiction "value contains itself")
  | fuel + 1, d, texts, entries, taken => do
    let taken ← entries.foldlM (fun taken (key, value) => do
      if isMergeKey key then return taken
      let key? ← if texts then do pure ((← readBytes d key).map fun s => .scalar (.text s))
        else readUntyped fuel d key
      match key? with
      | none => return taken
      | some .collection => throw (.contradiction "invalid map key")
      | some (.scalar key) =>
        if taken.any (·.holds key) then return taken
        let _ ← readUntyped fuel d value
        return taken.map (key :: ·)) taken
    match mergedValue? entries with
    | none => return taken
    | some value =>
      let inner ← match taken with
        | some taken => pure taken
        | none => takenKeys fuel d entries
      let inner ← forMerged d value (fun target inner => do
        match target with
        | .mapping _ _ entries =>
          if ← distinctKeys entries then
            return (← readUntypedEntries fuel d texts entries (some inner)).getD inner
          else return inner
        | _ => return inner) inner
      return taken.map fun _ => inner

/-- The keys of a mapping that others are merged into. -/
def takenKeys : Nat → Document → List (Node × Node) → Decode Taken
  | 0, _, _ => throw (.contradiction "value contains itself")
  | fuel + 1, d, entries => do
    entries.foldlM (fun taken (key, _) => do
      match ← readUntyped fuel d key with
      | none => return taken
      | some .collection => throw (.contradiction "invalid map key")
      | some (.scalar key) => return key :: taken) []

end

/-! ### Structures -/

structure Field (σ : Type) where
  name : String
  read : Document → Node → σ → Decode σ

/-- A field that is set by a decoder, and keeps its value where that gives none. -/
def Field.of {σ α : Type} (name : String) (decoder : Decoder α) (update : α → σ → σ) : Field σ :=
  ⟨name, fun d node s => do
    match ← decoder d node with
    | some a => return update a s
    | none => return s⟩

structure Shape (σ : Type) where
  name : String
  /-- Whether keys that are no fields are problems. -/
  strict : Bool
  fields : List (Field σ)
  /-- How a node is decoded that is not tagged as null, where that is not done by the fields. -/
  whole : Option (Node → Decode (Option σ)) := none

namespace Shape

/-- Decodes the entries of one mapping. `taken` are keys that count as read already, if this
    mapping is merged into another; the keys read here are added to them. `done` are the fields
    set by this mapping. -/
def readEntries {σ : Type} (shape : Shape σ) (d : Document) :
    List (Node × Node) → List ByteString → Option Taken → σ → Decode (σ × Option Taken)
  | [], _, taken, s => return (s, taken)
  | (key, value) :: rest, done, taken, s => do
    if isMergeKey key then readEntries shape d rest done taken s
    else
      match ← readBytes d key with
      | none => readEntries shape d rest done taken s
      | some name =>
        if taken.any (·.holds (.text name)) then readEntries shape d rest done taken s
        else
          let taken := taken.map (.text name :: ·)
          match shape.fields.find? (fun field => (field.name : ByteString) == name) with
          | some field =>
            if done.contains name then
              note (.repeatedField key.line name.shown shape.name)
              readEntries shape d rest done taken s
            else
              let s ← field.read d value s
              readEntries shape d rest (name :: done) taken s
          | none =>
            if shape.strict then note (.unknownField key.line name.shown shape.name)
            readEntries shape d rest done taken s

/-- Decodes a mapping with distinct keys into a structure, with what it merges. -/
def readMapping {σ : Type} (shape : Shape σ) (d : Document) :
    Nat → List (Node × Node) → Option Taken → σ → Decode (σ × Option Taken)
  | 0, _, _, _ => throw (.contradiction "value contains itself")
  | fuel + 1, entries, taken, s => do
    let (s, taken) ← shape.readEntries d entries [] taken s
    match mergedValue? entries with
    | none => return (s, taken)
    | some value =>
      let inner ← match taken with
        | some taken => pure taken
        | none => takenKeys fuel d entries
      let (s, inner) ← forMerged d value (fun target (s, inner) => do
        match target, if target.tag = "!!null" then none else shape.whole with
        | target, some whole => return ((← whole target).getD s, inner)
        | .mapping _ _ entries, none =>
          if ← distinctKeys entries then
            let (s, more) ← readMapping shape d fuel entries (some inner) s
            return (s, more.getD inner)
          else return (s, inner)
        | _, none => return (s, inner)) (s, inner)
      return (s, taken.map fun _ => inner)

def read {σ : Type} (shape : Shape σ) (s : σ) : Decoder σ := fun d node =>
  visit d node fun target => do
    match target, if target.tag = "!!null" then none else shape.whole with
    | target, some whole => whole target
    | .mapping _ _ entries, none =>
      if ← distinctKeys entries then
        return some (← shape.readMapping d d.reach entries none s).1
      else return none
    | .scalar line tag text, none =>
      match ← scalarValue tag text with
      | .null => return none
      | _ => mismatch (.scalar line tag text) shape.name
    | other, none => mismatch other shape.name

end Shape

/-! ### Points in time -/

/-- A point in time as a structure, which has no fields. -/
def timeShape : Shape Unit :=
  { name := "time.Time", strict := false, fields := [] }

/-- A point in time, which may be any scalar of the right form. A mapping is taken for a structure
    without fields. -/
def readTime : Decoder Timestamp := fun d node =>
  if (d.resolve node).isMapping then do
    let _ ← timeShape.read () d node
    return none
  else
    ofScalar "time.Time" (fun text value =>
      match value with
      | .time t => return some t
      | value =>
        let text := match value with
          | .text s => s.shown
          | _ => text
        match Timestamp.parse? text with
        | some t => return some t
        | none => throw (.time text)) d node

/-! ### Texts -/

/-- Decodes the first document of a text. Nothing is given if there is none or it is null. The
    document itself counts as a node. -/
def decode {α : Type} (decoder : Decoder α) (bytes : List UInt8) :
    Except DecodeError (Option α) :=
  match Document.parse bytes with
  | .error e => .error (.malformed e)
  | .ok none => .ok none
  | .ok (some d) =>
    match (do count; decoder d d.root : Decode (Option α)).run .start with
    | .error e => .error e
    | .ok (value, s) => if s.problems.isEmpty then .ok value else .error (.types s.problems)

end ClassAudit.Yaml
