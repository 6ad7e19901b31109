import ClassAudit.Files.Path

/-! # Archives

    An archive is a file that holds other files, each with a name and perhaps compressed. Its
    directory says where they are. What it says is kept apart from the bytes of the archive, which
    may have changed when a file is read.
-/

namespace ClassAudit

inductive ArchiveError
  | notArchive
  | corrupt
  | unsupported
  /-- There is nothing where something is expected. -/
  | ended
  /-- Something is not there as a whole. -/
  | truncated
  /-- Compressed data makes no sense before an offset. -/
  | damaged (offset : Nat)
  /-- An offset lies before the start of the archive at a path. -/
  | negativeOffset (path : String)
  /-- An offset lies beyond the end of any file. -/
  | invalidOffset (path : String)

def ArchiveError.message : ArchiveError → String
  | .notArchive => "zip: not a valid zip file"
  | .corrupt => "zip: checksum error"
  | .unsupported => "zip: unsupported compression algorithm"
  | .ended => "EOF"
  | .truncated => "unexpected EOF"
  | .damaged offset => "flate: corrupt input before offset " ++ toString offset
  | .negativeOffset path => "readat " ++ path ++ ": negative offset"
  | .invalidOffset path => "read " ++ path ++ ": invalid argument"

/-- The bytes of an archive, and its path in errors. -/
structure Archive where
  path : Path
  bytes : ByteArray

structure PackedFile where
  start : Int
  /-- How the data is compressed. -/
  method : Nat
  /-- The check sum of what it is compressed from. -/
  sum : Nat
  /-- The number of bytes before and after it is unpacked. -/
  packedSize : Nat
  size : Nat
  /-- Whether the check sum stands behind the data as well. -/
  isDescribed : Bool

/-- An entry of an archive. A name that ends with a slash is that of a directory. -/
structure ArchiveEntry where
  name : Path
  file : PackedFile
  /-- Whether the attributes of the entry are those of a directory. -/
  marksDirectory : Bool

def ArchiveEntry.isDirectory (e : ArchiveEntry) : Bool :=
  e.name.endsWithSlash

end ClassAudit
