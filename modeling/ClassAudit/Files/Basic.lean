import ClassAudit.Files.Path

/-! # Files

    What stands in a directory: files, which are known by a number, further directories, and links.
    Errors name the operation, the path it was given and the reason.
-/

namespace ClassAudit

/-! ### Entries of directories -/

inductive FileEntry
  | file (number : Nat)
  | directory (entries : List (ByteString × FileEntry))
  /-- A link to a path, which is meant relative to the directory that holds the link. -/
  | link (target : Path)

abbrev Directory := List (ByteString × FileEntry)

namespace Directory

def put (d : Directory) (name : ByteString) (e : FileEntry) : Directory :=
  (name, e) :: d

def remove (d : Directory) (name : ByteString) : Directory :=
  d.filter fun p => p.1 ≠ name

/-- The names in increasing order, with their entries. -/
def sorted (d : Directory) : Directory :=
  d.mergeSort fun p q => !decide (q.1 < p.1)

def modify (f : Directory → Directory) : List ByteString → Directory → Directory
  | [], d => f d
  | name :: names, d =>
    d.map fun (n, e) =>
      match e with
      | .directory inner => (n, .directory (if n = name then modify f names inner else inner))
      | e => (n, e)

end Directory

/-! ### Errors -/

inductive FileReason
  | missing
  | notDirectory
  | isDirectory
  | nameTooLong
  | invalid
  | alreadyExists
  | tooManyLinks
  deriving DecidableEq

def FileReason.message : FileReason → String
  | .missing => "no such file or directory"
  | .notDirectory => "not a directory"
  | .isDirectory => "is a directory"
  | .nameTooLong => "file name too long"
  | .invalid => "invalid argument"
  | .alreadyExists => "file exists"
  | .tooManyLinks => "too many levels of symbolic links"

/-- The greatest length of a name, in bytes. -/
def Path.nameLimit : Nat := 255

/-- The greatest length of a path, in bytes. -/
def Path.pathLimit : Nat := 4095

def Path.fault? (path : Path) : Option FileReason :=
  if path.isEmpty then some .missing
  else if path.bytes.contains 0 then some .invalid
  else if pathLimit < path.length then some .nameTooLong
  else none

structure FileError where
  operation : String
  path : Path
  reason : FileReason

def FileError.message (e : FileError) : String :=
  e.operation ++ " " ++ e.path.shown ++ ": " ++ e.reason.message

end ClassAudit
