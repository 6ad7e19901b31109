import ClassAudit.Yaml.Decode
import ClassAudit.Yaml.Value

/-! # Writing documents

    A document is written with its fields and items on lines of their own. A text is plain where
    it reads back as the same text, a literal block if it holds line feeds, and else quoted: in
    double quotes where it would read as another kind of value or holds characters that have to
    be escaped, in single quotes otherwise. Lines are never folded.
-/

namespace ClassAudit.Yaml

/-! ### Forms of texts -/

inductive TextForm
  | plain
  | singleQuoted
  | doubleQuoted
  | literal
  deriving DecidableEq

def isPrintable (c : Char) : Bool :=
  let n := c.toNat
  n == 0x0a || (0x20 ≤ n && n ≤ 0x7e) || (0xa0 ≤ n && n ≤ 0xd7ff) ||
    (0xe000 ≤ n && n ≤ 0xfffd && n != 0xfeff)

def hasPair (p : Char → Char → Bool) : List Char → Bool
  | a :: b :: rest => p a b || hasPair p (b :: rest)
  | _ => false

/-- Whether a colon in a text is followed by a blank or stands at its end. -/
def hasValueMark : List Char → Bool
  | [] => false
  | c :: rest => (c == ':' && endsWord rest) || hasValueMark rest

/-- Whether a text starts like something else than a plain scalar. -/
def startsWithIndicator (cs : List Char) : Bool :=
  ['-', '-', '-'].isPrefixOf cs || ['.', '.', '.'].isPrefixOf cs ||
    match cs with
    | [] => false
    | c :: rest =>
      "#,[]\x7b\x7d&*!|>'\"%@`".toList.contains c || ((c == '?' || c == '-') && endsWord rest)

/-- A character that is neither a tab nor printable. -/
def isSpecial (c : Char) : Bool :=
  c != '\t' && !isPrintable c

def plainAllowed (cs : List Char) : Bool :=
  !startsWithIndicator cs && !hasValueMark cs &&
    !hasPair (fun a b => isBlank a && b == '#') cs &&
    cs.head? != some ' ' && cs.getLast? != some ' ' &&
    !cs.any fun c => isBreak c || c == '\t' || isSpecial c

def singleAllowed (cs : List Char) : Bool :=
  !hasPair (fun a b => (a == ' ' && isBreak b) || (isBreak a && b == ' ')) cs &&
    !cs.any fun c => c == '\t' || isSpecial c

def literalAllowed (cs : List Char) : Bool :=
  cs.getLast? != some ' ' && !hasPair (fun a b => a == ' ' && isBreak b) cs && !cs.any isSpecial

/-- Whether a text looks like a number in base 60, such as a time of day. -/
def isSexagesimal (cs : List Char) : Bool :=
  let cs := match cs with
    | c :: rest => if c == '+' || c == '-' then rest else cs
    | [] => []
  cs.head?.any Char.isDigit &&
    groups (cs.length + 1) false (cs.dropWhile fun c => c.isDigit || c == '_')
where
  /-- Groups of a colon and one or two digits below 60, at least one of them, and at most a
      fraction behind. -/
  groups : Nat → Bool → List Char → Bool
    | 0, _, _ => false
    | fuel + 1, found, cs =>
      match cs with
      | ':' :: a :: b :: rest =>
        if '0' ≤ a && a ≤ '5' && b.isDigit then groups fuel true rest
        else a.isDigit && groups fuel true (b :: rest)
      | [':', a] => a.isDigit
      | '.' :: rest => found && rest.all fun c => c.isDigit || c == '_'
      | [] => found
      | _ => false

/-- Whether a plain scalar reads as a text, for readers of all versions. -/
def readsAsText (s : String) : Bool :=
  match implicitValue true s with
  | .text _ => !isSexagesimal s.toList && (wordBool? s).isNone
  | _ => false

def textForm (s : String) : TextForm :=
  let cs := s.toList
  if cs.contains '\n' then if literalAllowed cs then .literal else .doubleQuoted
  else if readsAsText s then
    if plainAllowed cs then .plain
    else if singleAllowed cs then .singleQuoted
    else .doubleQuoted
  else .doubleQuoted

/-! ### Texts -/

def upperHex (width n : Nat) : String :=
  String.ofList ((Text.hex width n).toList.map Char.toUpper)

def escape (c : Char) : String :=
  match c.toNat with
  | 0x00 => "\\0"
  | 0x07 => "\\a"
  | 0x08 => "\\b"
  | 0x09 => "\\t"
  | 0x0a => "\\n"
  | 0x0b => "\\v"
  | 0x0c => "\\f"
  | 0x0d => "\\r"
  | 0x1b => "\\e"
  | 0x22 => "\\\""
  | 0x5c => "\\\\"
  | 0x85 => "\\N"
  | 0xa0 => "\\_"
  | 0x2028 => "\\L"
  | 0x2029 => "\\P"
  | n =>
    if n ≤ 0xff then "\\x" ++ upperHex 2 n
    else if n ≤ 0xffff then "\\u" ++ upperHex 4 n
    else "\\U" ++ upperHex 8 n

/-- The inside of double quotes. Every character of a text that starts with a byte-order mark is
    escaped, and else those that have to be. -/
def doubleQuoted (cs : List Char) : String :=
  let all := cs.head? == some byteOrderMark
  String.join (cs.map fun c =>
    if all || c == '"' || c == '\\' || !isPrintable c || isBreak c then escape c else c.toString)

def spaces (n : Nat) : List Char :=
  List.replicate n ' '

/-- The inside of single quotes. A line that follows a line break is indented. -/
def singleQuoted (indent : Nat) : Bool → List Char → List Char
  | _, [] => []
  | broken, c :: cs =>
    if isBreak c then c :: singleQuoted indent true cs
    else
      (if broken then spaces indent else []) ++ (if c == '\'' then ['\'', '\''] else [c]) ++
        singleQuoted indent false cs

def literalLines (indent : Nat) : Bool → List Char → List Char
  | _, [] => []
  | broken, c :: cs =>
    if isBreak c then c :: literalLines indent true cs
    else (if broken then spaces indent else []) ++ c :: literalLines indent false cs

/-- What stands behind the header of a literal block. A line break that starts the text ends the
    line of the header. -/
def literalBody (indent : Nat) (cs : List Char) : List Char :=
  (if cs.head?.any isBreak then [] else ['\n']) ++ literalLines indent true cs

/-- The header of a literal block: the step of indentation if the text starts with white space, and
    what happens to the line breaks at the end. -/
def literalHeader (step : Nat) (cs : List Char) : String :=
  let hint := if cs.head?.any fun c => c == ' ' || isBreak c then toString step else ""
  let chomping := match cs.reverse with
    | [] => "-"
    | [c] => if isBreak c then "+" else "-"
    | c :: d :: _ => if isBreak c then if isBreak d then "+" else "" else "-"
  "|" ++ hint ++ chomping

def textIn (step indent : Nat) (s : String) : TextForm → String
  | .plain => s
  | .singleQuoted => "'" ++ String.ofList (singleQuoted indent false s.toList) ++ "'"
  | .doubleQuoted => "\"" ++ doubleQuoted s.toList ++ "\""
  | .literal => literalHeader step s.toList ++ String.ofList (literalBody indent s.toList)

/-- A list of characters in lines of a length, each with a line feed, unless one line holds all of
    it with room to spare. -/
def wrap (width : Nat) (cs : List Char) : List Char :=
  if cs.length < width then cs else go (cs.length + 1) cs
where
  go : Nat → List Char → List Char
    | _, [] => []
    | 0, cs => cs
    | fuel + 1, cs => cs.take width ++ '\n' :: go fuel (cs.drop width)

/-- A text, where further lines are indented by `indent`. Bytes that are none are written with a tag,
    in base 64. -/
def textOf (step indent : Nat) (s : ByteString) : String :=
  match Text.ofUtf8? s.bytes with
  | some text => textIn step indent text (textForm text)
  | none =>
    let cs := wrap 70 (Text.toBase64 s.bytes)
    "!!binary " ++ textIn step indent (String.ofList cs)
      (if cs.contains '\n' then .literal else .plain)

/-! ### Values -/

/-- A text with a line feed behind it. A literal block may end with a line break already. -/
def endLine (text : String) : String :=
  if text.toList.getLast?.any isBreak then text else text ++ "\n"

/-- The indentation inside something that is indented by `indent`: two more in an item of a list,
    else the next multiple of the step. -/
def inner (step indent : Nat) (inList : Bool) : Nat :=
  if inList then indent + 2 else step * ((indent + step) / step)

/-- What stands in front of something on a line of its own. -/
def lineStart (indent : Nat) (mark : String) : String :=
  String.ofList (spaces indent) ++ mark

mutual

/-- A value with the end of its last line, as it follows the colon of a field or the dash of an item
    that is indented by `indent`. -/
def Value.written (step indent : Nat) (inList : Bool) : Value → String
  | .text s => endLine (" " ++ textOf step (inner step indent inList) s)
  | .bool b => " " ++ toString b ++ "\n"
  | .int n => " " ++ toString n ++ "\n"
  | .time t => " " ++ t.text ++ "\n"
  | .list [] => " []\n"
  | .list items => "\n" ++ String.join (Value.writtenItems step (inner step indent inList) items)
  | .record [] => " \x7b\x7d\n"
  | .record (field :: fields) =>
    let indent := inner step indent inList
    let rest := String.join (Value.writtenFields step indent fields)
    let first := field.1 ++ ":" ++ Value.written step indent false field.2
    (if inList then " " else "\n" ++ lineStart indent "") ++ first ++ rest

def Value.writtenItems (step indent : Nat) : List Value → List String
  | [] => []
  | item :: items =>
    (lineStart indent "-" ++ Value.written step indent true item) ::
      Value.writtenItems step indent items

def Value.writtenFields (step indent : Nat) : List (String × Value) → List String
  | [] => []
  | (name, value) :: fields =>
    (lineStart indent (name ++ ":") ++ Value.written step indent false value) ::
      Value.writtenFields step indent fields

end

/-- The document of a record, with a step of indentation. -/
def printRecord (step : Nat) (fields : List (String × Value)) : String :=
  match fields with
  | [] => "\x7b\x7d\n"
  | fields => String.join (Value.writtenFields step 0 fields)

end ClassAudit.Yaml
