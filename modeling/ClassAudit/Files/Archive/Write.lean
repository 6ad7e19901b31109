import ClassAudit.Files.Archive.Read

/-! # Writing archives

    Files are written one after the other as they are, each behind a header, and then the directory
    that `Archive.entries` reads.
-/

namespace ClassAudit

structure ArchiveMember where
  name : Path
  bytes : List UInt8
  /-- How the file says that its bytes are compressed. -/
  method : Nat
  sum : Nat

namespace ArchiveMember

/-- A file that is what it says. A directory holds no bytes. -/
def plain (name : Path) (bytes : List UInt8) : ArchiveMember :=
  let bytes := if name.endsWithSlash then [] else bytes
  ⟨name, bytes, 0, Archive.checkSum bytes⟩

def corrupt (m : ArchiveMember) : ArchiveMember :=
  { m with sum := if m.sum = 1 then 2 else 1 }

/-- A file whose compression is said to be of some kind. -/
def claim (m : ArchiveMember) (method : Nat) : ArchiveMember :=
  { m with method }

end ArchiveMember

namespace Archive

def numberBytes (size n : Nat) : List UInt8 :=
  (List.range size).map fun i => .ofNat (n >>> (8 * i))

/-- Numbers one after the other, each with its size. -/
def numbers (fields : List (Nat × Nat)) : List UInt8 :=
  fields.flatMap fun (size, n) => numberBytes size n

/-- The version that readers of an archive need to know. -/
def version : Nat := 20

/-- What a header and the directory say alike about a file. -/
def description (m : ArchiveMember) : List UInt8 :=
  numbers [(2, version), (2, 0), (2, m.method), (2, 0), (2, 0), (4, m.sum), (4, m.bytes.length),
    (4, m.bytes.length), (2, m.name.length), (2, 0)]

def part (m : ArchiveMember) : List UInt8 :=
  fileMark ++ description m ++ m.name.bytes ++ m.bytes

def entry (m : ArchiveMember) (offset : Nat) : List UInt8 :=
  entryMark ++ numberBytes 2 version ++ description m ++
    numbers [(2, 0), (2, 0), (2, 0), (4, 0), (4, offset)] ++ m.name.bytes

/-- The entries for files, of which the first one starts at an offset. -/
def directoryOf : Nat → List ArchiveMember → List UInt8
  | _, [] => []
  | offset, m :: members => entry m offset ++ directoryOf (offset + (part m).length) members

def pack (members : List ArchiveMember) : List UInt8 :=
  let parts := members.flatMap part
  let directory := directoryOf 0 members
  parts ++ directory ++ endMark ++
    numbers [(2, 0), (2, 0), (2, members.length), (2, members.length), (4, directory.length),
      (4, parts.length), (2, 0)]

end Archive

end ClassAudit
