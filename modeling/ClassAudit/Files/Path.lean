import ClassAudit.Text.ByteString

/-! # Paths

    A path is a byte string of names with slashes between them. Cleaning a path removes what has no
    effect: empty names, single dots, and a name followed by two dots. These functions do not look at
    files.
-/

namespace ClassAudit

abbrev Path := ByteString

namespace Path

def slash : UInt8 := 0x2f

/-- What stands in front of an extension, and the name of a directory in itself. -/
def dot : UInt8 := 0x2e

def here : ByteString :=
  ⟨[dot]⟩

def above : ByteString :=
  ⟨[dot, dot]⟩

def isAbsolute (path : Path) : Bool :=
  path.bytes.head? == some slash

/-- Whether a path ends with a slash. It then stands for what its last link leads to, which has to be
    a directory. -/
def endsWithSlash (path : Path) : Bool :=
  path.bytes.getLast? == some slash

def names (path : Path) : List ByteString :=
  (path.split slash).filter fun name => !name.isEmpty

/-- The path of some names, from the root or from where one is. -/
def ofNames (absolute : Bool) (names : List ByteString) : Path :=
  if absolute then ⟨slash :: (ByteString.intercalate slash names).bytes⟩
  else ByteString.intercalate slash names

/-! ### Cleaning -/

/-- The names of a clean path, in reverse. Two dots take back a name; in front of all names they
    are kept, unless the path starts at the root. -/
def cleanNames (absolute : Bool) : List ByteString → List ByteString → List ByteString
  | [], done => done
  | name :: names, done =>
    if name = here then cleanNames absolute names done
    else if name = above then
      match done with
      | last :: before =>
        if last = above then cleanNames absolute names (above :: done)
        else cleanNames absolute names before
      | [] => cleanNames absolute names (if absolute then [] else [above])
    else cleanNames absolute names (name :: done)

def clean (path : Path) : Path :=
  let names := (cleanNames path.isAbsolute path.names []).reverse
  if names.isEmpty && !path.isAbsolute then here else ofNames path.isAbsolute names

/-- Joins the parts of a path, of which empty ones do not count. -/
def join (parts : List Path) : Path :=
  match parts.dropWhile (·.isEmpty) with
  | [] => .empty
  | parts => clean (ByteString.intercalate slash parts)

/-- A path that is meant relative to a directory. Empty and absolute ones are kept. -/
def resolve (directory path : Path) : Path :=
  if path.isEmpty || path.isAbsolute then path else join [directory, path]

/-! ### Parts of a path -/

def dropSlashes (path : Path) : Path :=
  ⟨(path.bytes.reverse.dropWhile (· == slash)).reverse⟩

def lastName (path : Path) : ByteString :=
  ⟨(path.bytes.reverse.takeWhile (· != slash)).reverse⟩

def beforeLast (path : Path) : Path :=
  ⟨(path.bytes.reverse.dropWhile (· != slash)).reverse⟩

/-- The last name in a path, without slashes at its end. -/
def baseName (path : Path) : ByteString :=
  let inner := path.dropSlashes
  if inner.isEmpty then ⟨[slash]⟩ else lastName inner

def directory (path : Path) : Path :=
  clean path.beforeLast

/-- The end of a path from the last dot of its last name, empty if there is none. -/
def extension (path : Path) : ByteString :=
  let name := path.lastName.bytes.reverse
  if name.contains dot then ⟨(name.takeWhile (· != dot) ++ [dot]).reverse⟩ else .empty

/-- The paths of the directories on the way to a path, and the path itself. -/
def ancestors (path : Path) : List Path :=
  let names := path.names
  (List.range names.length).map fun n => ofNames path.isAbsolute (names.take (n + 1))

end Path

end ClassAudit
