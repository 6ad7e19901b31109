import ClassAudit.Yaml.Implicit
import ClassAudit.Yaml.Node
import ClassAudit.Yaml.Token.Stream

/-! # Reading documents

    The grammar of nodes over the stream of tokens. Only the first document of a text is read,
    and of what follows it no more than the few tokens that the stream finds ahead.
-/

namespace ClassAudit.Yaml

structure Reading where
  stream : TokenStream
  /-- What the handles of tags stand for. -/
  handles : List (String × String)
  /-- The number that each name has last been given to. -/
  names : List (String × Nat)
  named : List (Nat × Node)
  count : Nat
  aliases : Nat

namespace Reading

abbrev Read := StateT Reading (Except SyntaxError)

def fail {α : Type} (line : Nat) (problem : String) : Read α :=
  throw ⟨line, problem⟩

def peek : Read Token := do
  let r ← get
  match r.stream.peek with
  | .ok (t, stream) => set { r with stream }; return t
  | .error e => throw e

def take : Read Unit :=
  modify fun r => { r with stream := r.stream.take }

def advance : Read Token := do
  take
  peek

/-! ### Tags and names -/

def standardHandles : List (String × String) :=
  [("!", "!"), ("!!", "tag:yaml.org,2002:")]

def shortTag (tag : String) : String :=
  let long := "tag:yaml.org,2002:".toList
  if long.isPrefixOf tag.toList then "!!" ++ String.ofList (tag.toList.drop long.length) else tag

/-- The tag that a handle and a suffix stand for, empty if it says nothing. -/
def tagOf (line : Nat) (handle suffix : String) : Read String := do
  if handle = "" then return if suffix = "!" then "" else shortTag suffix
  match (← get).handles.lookup handle with
  | some uri => return shortTag (uri ++ suffix)
  | none => fail line "found undefined tag handle"

structure Properties where
  /-- The line of the first property, or of the node. -/
  line : Nat
  name : Option String
  /-- The tag, with an empty text for one that says nothing. -/
  tag : Option String

/-- The properties in front of a node, in either order, and the token behind them. -/
def properties : Read (Properties × Token) := do
  let t ← peek
  match t.kind with
  | .anchor name =>
    let u ← advance
    match u.kind with
    | .tag handle suffix =>
      let v ← advance
      return (⟨t.line, some name, some (← tagOf t.line handle suffix)⟩, v)
    | _ => return (⟨t.line, some name, none⟩, u)
  | .tag handle suffix =>
    let u ← advance
    match u.kind with
    | .anchor name =>
      let v ← advance
      return (⟨t.line, some name, some (← tagOf t.line handle suffix)⟩, v)
    | _ => return (⟨t.line, none, some (← tagOf t.line handle suffix)⟩, u)
  | _ => return (⟨t.line, none, none⟩, t)

def Properties.tagOr (p : Properties) (tag : String) : String :=
  match p.tag with
  | none | some "" => tag
  | some given => given

/-- Gives the name of a node, if it has one, to the node that starts here. -/
def giveName (name : Option String) : Read (Option Nat) := do
  match name with
  | none => return none
  | some name =>
    let r ← get
    set { r with names := (name, r.count) :: r.names, count := r.count + 1 }
    return some r.count

def record (number : Option Nat) (node : Node) : Read Node := do
  if let some n := number then
    modify fun r => { r with named := (n, node) :: r.named }
  return node

def scalarNode (p : Properties) (text : String) (style : ScalarStyle) : Node :=
  let implied :=
    if style = .plain then
      if text = "<<" then "!!merge" else (implicitValue true text).tag
    else "!!str"
  .scalar p.line (p.tagOr implied) text

/-! ### Nodes -/

/-- The empty scalar behind properties. Without any, a node is missing. -/
def empty (p : Properties) (number : Option Nat) (t : Token) : Read Node := do
  if p.name.isNone ∧ p.tag.isNone then fail t.line "did not find expected node content"
  else record number (scalarNode p "" .plain)

/-- The token at which an item in brackets starts, or the end. Items but the first have a comma in
    front. -/
def flowNext (first : Bool) (close : TokenKind) (problem : String) : Read Token := do
  let t ← peek
  if t.kind = close ∨ first then return t
  else if t.kind = .flowEntry then advance
  else fail t.line problem

mutual

/-- A node. Block collections can start only where `block` allows it, and a sequence that is not
    indented only where `indentless` does. -/
def node (block indentless : Bool) : Nat → Read Node
  | 0 => fail 0 "exceeded max depth"
  | fuel + 1 => do
    let t ← peek
    if let .alias name := t.kind then
      take
      let r ← get
      match r.names.lookup name with
      | some target =>
        set { r with aliases := r.aliases + 1 }
        return .alias t.line name r.aliases target
      | none => fail t.line ("unknown anchor '" ++ name ++ "' referenced")
    let (p, t) ← properties
    let number ← giveName p.name
    match t.kind with
    | .scalar text style =>
      take
      record number (scalarNode p text style)
    | .flowSequenceStart =>
      take
      record number (.sequence p.line (p.tagOr "!!seq") (← flowItems true fuel))
    | .flowMappingStart =>
      take
      record number (.mapping p.line (p.tagOr "!!map") (← flowEntries true fuel))
    | .blockEntry =>
      if indentless then
        record number (.sequence p.line (p.tagOr "!!seq") (← indentlessItems fuel))
      else empty p number t
    | .blockSequenceStart =>
      if block then
        take
        record number (.sequence p.line (p.tagOr "!!seq") (← blockItems fuel))
      else empty p number t
    | .blockMappingStart =>
      if block then
        take
        record number (.mapping p.line (p.tagOr "!!map") (← blockEntries fuel))
      else empty p number t
    | _ => empty p number t

def blockItems : Nat → Read (List Node)
  | 0 => fail 0 "exceeded max depth"
  | fuel + 1 => do
    let t ← peek
    match t.kind with
    | .blockEntry =>
      let u ← advance
      let item ← match u.kind with
        | .blockEntry | .blockEnd => pure (Node.null t.line)
        | _ => node true false fuel
      return item :: (← blockItems fuel)
    | .blockEnd => take; return []
    | _ => fail t.line "did not find expected '-' indicator"

/-- The items of a sequence that is not indented. -/
def indentlessItems : Nat → Read (List Node)
  | 0 => fail 0 "exceeded max depth"
  | fuel + 1 => do
    let t ← peek
    match t.kind with
    | .blockEntry =>
      let u ← advance
      let item ← match u.kind with
        | .blockEntry | .key | .value | .blockEnd => pure (Node.null t.line)
        | _ => node true false fuel
      return item :: (← indentlessItems fuel)
    | _ => return []

def blockEntries : Nat → Read (List (Node × Node))
  | 0 => fail 0 "exceeded max depth"
  | fuel + 1 => do
    let t ← peek
    match t.kind with
    | .key =>
      let u ← advance
      let key ← match u.kind with
        | .key | .value | .blockEnd => pure (Node.null t.line)
        | _ => node true true fuel
      let value ← blockValue fuel
      return (key, value) :: (← blockEntries fuel)
    | .blockEnd => take; return []
    | _ => fail t.line "did not find expected key"

def blockValue : Nat → Read Node
  | 0 => fail 0 "exceeded max depth"
  | fuel + 1 => do
    let t ← peek
    match t.kind with
    | .value =>
      let u ← advance
      match u.kind with
      | .key | .value | .blockEnd => return .null t.line
      | _ => node true true fuel
    | _ => return .null t.line

def flowItems (first : Bool) : Nat → Read (List Node)
  | 0 => fail 0 "exceeded max depth"
  | fuel + 1 => do
    let t ← flowNext first .flowSequenceEnd "did not find expected ',' or ']'"
    match t.kind with
    | .flowSequenceEnd => take; return []
    | .key =>
      let u ← advance
      let key ← match u.kind with
        | .value | .flowEntry | .flowSequenceEnd => take; pure (Node.null u.line)
        | _ => node false false fuel
      let value ← flowValue .flowSequenceEnd fuel
      return .mapping t.line "!!map" [(key, value)] :: (← flowItems false fuel)
    | _ =>
      let item ← node false false fuel
      return item :: (← flowItems false fuel)

def flowEntries (first : Bool) : Nat → Read (List (Node × Node))
  | 0 => fail 0 "exceeded max depth"
  | fuel + 1 => do
    let t ← flowNext first .flowMappingEnd "did not find expected ',' or '\x7d'"
    match t.kind with
    | .flowMappingEnd => take; return []
    | .key =>
      let u ← advance
      let key ← match u.kind with
        | .value | .flowEntry | .flowMappingEnd => pure (Node.null u.line)
        | _ => node false false fuel
      let value ← flowValue .flowMappingEnd fuel
      return (key, value) :: (← flowEntries false fuel)
    | _ =>
      let key ← node false false fuel
      let u ← peek
      return (key, .null u.line) :: (← flowEntries false fuel)

def flowValue (close : TokenKind) : Nat → Read Node
  | 0 => fail 0 "exceeded max depth"
  | fuel + 1 => do
    let t ← peek
    if t.kind = .value then
      let u ← advance
      if u.kind = .flowEntry ∨ u.kind = close then return .null u.line
      else node false false fuel
    else return .null t.line

end

/-! ### Documents -/

/-- The directives in front of a document, with what they say about handles. -/
def directives : Nat → Bool → List (String × String) → Read (List (String × String))
  | 0, _, handles => return handles
  | fuel + 1, versioned, handles => do
    let t ← peek
    match t.kind with
    | .versionDirective major minor =>
      if versioned then fail t.line "found duplicate %YAML directive"
      if major ≠ 1 ∨ minor ≠ 1 then fail t.line "found incompatible YAML document"
      take
      directives fuel true handles
    | .tagDirective handle uri =>
      if (handles.lookup handle).isSome then fail t.line "found duplicate %TAG directive"
      take
      directives fuel versioned (handles ++ [(handle, uri)])
    | _ => return handles

def root (fuel : Nat) : Read (Option Node) := do
  let t ← peek
  let node ← match t.kind with
    | .streamEnd => return none
    | .versionDirective .. | .tagDirective .. | .documentStart =>
      let handles ← directives fuel false []
      modify fun r => { r with handles := handles ++ standardHandles }
      let t ← peek
      if t.kind ≠ .documentStart then fail t.line "did not find expected <document start>"
      let t ← advance
      match t.kind with
      | .versionDirective .. | .tagDirective .. | .documentStart | .documentEnd | .streamEnd =>
        pure (Node.null t.line)
      | _ => node true false fuel
    | _ => node true false fuel
  let _ ← peek
  return some node

end Reading

def Document.parse (bytes : List UInt8) : Except SyntaxError (Option Document) :=
  let depth := 8 * bytes.length + 64
  let start : Reading :=
    ⟨.ofSource (.ofBytes bytes), Reading.standardHandles, [], [], 0, 0⟩
  match (Reading.root depth).run start with
  | .error e => .error e
  | .ok (none, _) => .ok none
  | .ok (some root, r) => .ok (some ⟨root, r.named, r.aliases, depth⟩)

end ClassAudit.Yaml
