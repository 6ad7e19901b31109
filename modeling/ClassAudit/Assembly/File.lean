import ClassAudit.Assembly.Basic
import ClassAudit.Files.Tree

/-! # Files of assembled classes -/

namespace ClassAudit.Assembly

def Class.path (c : Class) (directory : Path) : Path :=
  Path.join [directory, ByteString.ofString (c.name ++ ".class")]

/-- Writes a class to its file below a directory. Missing directories are made, and stay if the file
    cannot be written. -/
def Class.save (t : FileTree) (directory : Path) (c : Class) : FileTree × Option FileError :=
  let path := c.path directory
  match t.makeDirectories path.directory with
  | (t, some e) => (t, some e)
  | (t, none) =>
    match t.write path c.bytes with
    | .ok t => (t, none)
    | .error e => (t, some e)

end ClassAudit.Assembly
