import ClassAudit.Files.Archive.Basic
import ClassAudit.Files.Inflate

/-! # Reading archives

    An archive ends with a record that says where its directory starts, how large it is and how many
    entries it has. Something may stand in front of the archive, which shifts all offsets by the
    same number. A directory entry names a file, its check sum, how it is compressed, and where its
    data is. Numbers that are too large for their place stand in a record or a field of their own.
-/

namespace ClassAudit.Archive

/-! ### Numbers -/

/-- A number with its lowest byte first. -/
def number (bytes : List UInt8) : Nat :=
  bytes.foldr (fun b n => b.toNat + 256 * n) 0

def slice (bytes : List UInt8) (offset size : Nat) : List UInt8 :=
  (bytes.drop offset).take size

def numberAt (bytes : List UInt8) (offset size : Nat) : Nat :=
  number (slice bytes offset size)

/-- A number as one of 64 bits with a sign. -/
def signed (n : Int) : Int :=
  n.bmod 0x10000000000000000

/-- The bytes of an archive from an offset on, as far as there are any. -/
def take (a : Archive) (offset size : Nat) : List UInt8 :=
  let stop := min (offset + size) a.bytes.size
  (a.bytes.extract (min offset stop) stop).toList

def drop (a : Archive) (offset : Nat) : List UInt8 :=
  a.take offset a.bytes.size

def bytesAt (a : Archive) (offset : Int) (size : Nat) : Except ArchiveError (List UInt8) :=
  if offset < 0 then .error (.negativeOffset a.path.shown)
  else if 0x8000000000000000 ≤ offset + size then .error (.invalidOffset a.path.shown)
  else
    let found := a.take offset.toNat size
    if found.length < size then .error .ended else .ok found

/-! ### Marks -/

def fileMark : List UInt8 := [0x50, 0x4b, 0x03, 0x04]

def entryMark : List UInt8 := [0x50, 0x4b, 0x01, 0x02]

/-- The first bytes of the last record. -/
def endMark : List UInt8 := [0x50, 0x4b, 0x05, 0x06]

def wideMark : List UInt8 := [0x50, 0x4b, 0x06, 0x06]

/-- The first bytes of what says where the record with larger numbers is. -/
def wideLocatorMark : List UInt8 := [0x50, 0x4b, 0x06, 0x07]

/-- The first bytes of a check sum behind data. They may be missing. -/
def descriptorMark : List UInt8 := [0x50, 0x4b, 0x07, 0x08]

/-! ### Check sums -/

def shiftSum (sum : UInt32) : UInt32 :=
  if sum &&& 1 = 1 then (sum >>> 1) ^^^ 0xedb88320 else sum >>> 1

def sumTable : Array UInt32 :=
  Array.ofFn fun b : Fin 256 => (List.range 8).foldl (fun s _ => shiftSum s) b.val.toUInt32

def stepSum (sum : UInt32) (b : UInt8) : UInt32 :=
  sumTable[((sum ^^^ b.toUInt32) &&& 0xff).toNat]?.getD 0 ^^^ (sum >>> 8)

def checkSum (bytes : List UInt8) : Nat :=
  (bytes.foldl stepSum 0xffffffff ^^^ 0xffffffff).toNat

/-! ### Directory entries -/

def entrySize : Nat := 46

/-- The value of a number that stands elsewhere because it is too large. -/
def tooLarge : Nat := 0xffffffff

/-- The first field with an identifier among further fields. -/
def field? (id : Nat) (fields : List UInt8) : Option (List UInt8) :=
  go (fields.length + 1) fields
where
  go : Nat → List UInt8 → Option (List UInt8)
    | 0, _ => none
    | fuel + 1, fields =>
      let size := numberAt fields 2 2
      let rest := fields.drop 4
      if fields.length < 4 || rest.length < size then none
      else if numberAt fields 0 2 = id then some (rest.take size)
      else go fuel (rest.drop size)

/-- Replaces numbers that are too large by those of a field, in order. -/
def widen : List Nat → List UInt8 → Except ArchiveError (List Nat)
  | [], _ => .ok []
  | n :: ns, field => do
    if n = tooLarge then
      if field.length < 8 then throw .notArchive
      return numberAt field 0 8 :: (← widen ns (field.drop 8))
    else return n :: (← widen ns field)

/-- The size of a file, its packed size and its start, given what its entry says and the further
    fields of the entry. -/
def wideNumbers (size packedSize start : Nat) (fields : List UInt8) :
    Except ArchiveError (Nat × Nat × Nat) := do
  match field? 1 fields with
  | none =>
    if packedSize = tooLarge ∨ start = tooLarge then throw .notArchive
    return (size, packedSize, start)
  | some field =>
    match ← widen [size, packedSize, start] field with
    | [size, packedSize, start] => return (size, packedSize, start)
    | _ => throw .notArchive

/-- Whether attributes are those of a directory, by the system that wrote them. -/
def marksDirectory (system attributes : Nat) : Bool :=
  match system with
  | 3 | 19 => attributes / 0x10000000 = 4
  | 0 | 11 | 14 => attributes / 16 % 2 = 1
  | _ => false

/-- Some bytes at the head of others, and what follows them. -/
def split (size : Nat) (bytes : List UInt8) : Except ArchiveError (List UInt8 × List UInt8) :=
  let found := bytes.take size
  if found.length = size then .ok (found, bytes.drop size)
  else .error (if found.isEmpty then .ended else .truncated)

/-- The entry at the head of some bytes, and what follows it. All offsets are shifted. -/
def readEntry (shift : Int) (bytes : List UInt8) :
    Except ArchiveError (ArchiveEntry × List UInt8) := do
  let (e, rest) ← split entrySize bytes
  if !entryMark.isPrefixOf e then throw .notArchive
  let nameSize := numberAt e 28 2
  let fieldSize := numberAt e 30 2
  let (texts, rest) ← split (nameSize + fieldSize + numberAt e 32 2) rest
  let (size, packedSize, start) ← wideNumbers (numberAt e 24 4) (numberAt e 20 4)
    (numberAt e 42 4) (slice texts nameSize fieldSize)
  let file : PackedFile :=
    { start := signed (start + shift)
      method := numberAt e 10 2
      sum := numberAt e 16 4
      packedSize := packedSize
      size := size
      isDescribed := numberAt e 8 2 / 8 % 2 = 1 }
  let entry : ArchiveEntry :=
    ⟨⟨texts.take nameSize⟩, file, marksDirectory (numberAt e 5 1) (numberAt e 38 4)⟩
  return (entry, rest)

/-- The entries at the head of some bytes, and why there are no more. An end where an entry might
    start is an error. -/
def readEntries (shift : Int) :
    Nat → List UInt8 → List ArchiveEntry → Except ArchiveError (List ArchiveEntry × ArchiveError)
  | 0, _, done => .ok (done.reverse, .notArchive)
  | fuel + 1, bytes, done =>
    match readEntry shift bytes with
    | .ok (entry, rest) => readEntries shift fuel rest (entry :: done)
    | .error .ended => .error .ended
    | .error e => .ok (done.reverse, e)

/-! ### The end of an archive -/

structure Directory where
  /-- The number of entries. Of larger numbers only the lowest 16 bits count. -/
  count : Nat
  size : Nat
  offset : Nat

def endSize : Nat := 22

/-- How much of the end of an archive is searched for the last record. -/
def endReach : Nat := 65 * 1024

/-- The last record and its offset. It has to hold its comment as a whole. -/
def findEnd? (a : Archive) : Option (Nat × List UInt8) :=
  let skipped := a.bytes.size - endReach
  match go skipped (a.drop skipped) none with
  | some (offset, record) =>
    if record.length < endSize + numberAt record 20 2 then none else some (offset, record)
  | none => none
where
  /-- The last place with the mark, where there is one already. -/
  go : Nat → List UInt8 → Option (Nat × List UInt8) → Option (Nat × List UInt8)
    | _, [], found => found
    | offset, b :: bytes, found =>
      let here := b :: bytes
      go (offset + 1) bytes
        (if endMark.isPrefixOf here && (here.take endSize).length == endSize then
          some (offset, here) else found)

/-- Where the record with larger numbers is, if there is one. The last record has an offset. -/
def wideOffset? (a : Archive) (offset : Nat) : Option Nat :=
  let locator := a.take (offset - 20) 20
  let wide := numberAt locator 8 8
  if 20 ≤ offset ∧ wideLocatorMark.isPrefixOf locator ∧ numberAt locator 4 4 = 0 ∧
      numberAt locator 16 4 = 1 ∧ wide < 0x8000000000000000 then some wide
  else none

def wideDirectory (a : Archive) (offset : Nat) : Except ArchiveError Directory := do
  let record ← a.bytesAt offset 56
  if !wideMark.isPrefixOf record then throw .notArchive
  return ⟨numberAt record 32 8, numberAt record 40 8, numberAt record 48 8⟩

/-- What is said about the directory, and where. -/
def directory (a : Archive) : Except ArchiveError (Directory × Nat) := do
  match a.findEnd? with
  | none => throw .notArchive
  | some (offset, record) =>
    let d : Directory := ⟨numberAt record 10 2, numberAt record 12 4, numberAt record 16 4⟩
    if d.count = 0xffff ∨ d.size = 0xffff ∨ d.offset = tooLarge then
      match a.wideOffset? offset with
      | some wide => return (← wideDirectory a wide, wide)
      | none => return (d, offset)
    else return (d, offset)

/-- The number by which offsets in an archive are shifted. Where the directory can be found without
    it, there is none. -/
def shiftOf (a : Archive) (d : Directory) (stop : Nat) : Except ArchiveError Int := do
  if 0x8000000000000000 ≤ d.size ∨ 0x8000000000000000 ≤ d.offset then throw .notArchive
  let shift := signed (stop - d.size - d.offset)
  let start := signed (shift + d.offset)
  if start < 0 ∨ a.bytes.size ≤ start then throw .notArchive
  match readEntry 0 (a.drop d.offset) with
  | .ok _ => return if 0 < shift then 0 else shift
  | .error _ => return shift

def entries (a : Archive) : Except ArchiveError (List ArchiveEntry) := do
  let (d, stop) ← a.directory
  let shift ← a.shiftOf d stop
  let bytes := a.drop (shift + d.offset).toNat
  let (entries, last) ← readEntries shift (bytes.length + 1) bytes []
  if entries.length % 0x10000 = d.count % 0x10000 then return entries else throw last

end ClassAudit.Archive

/-! ### Files in archives -/

namespace ClassAudit.PackedFile

open Archive

/-- The data of a packed file, which does not give more than its size. -/
def unpack (f : PackedFile) (data : List UInt8) : Except ArchiveError (List UInt8) :=
  match f.method with
  | 0 => if f.size < data.length then .error .notArchive else .ok data
  | 8 =>
    (Inflate.decompress f.size data).mapError fun
      | .excess => .notArchive
      | .truncated => .truncated
      | .damaged offset => .damaged offset
  | _ => .error .unsupported

/-- The check sum behind the data, at an offset. Two more numbers have to follow it. -/
def describedSum (a : Archive) (offset : Int) : Except ArchiveError Nat := do
  let mark ← present (a.bytesAt offset 4)
  if mark = descriptorMark then
    return numberAt (← present (a.bytesAt (offset + 4) 12)) 0 4
  else
    let _ ← present (a.bytesAt (offset + 4) 8)
    return number mark
where
  present (found : Except ArchiveError (List UInt8)) : Except ArchiveError (List UInt8) :=
    found.mapError fun
      | .ended => .truncated
      | e => e

/-- The bytes of a packed file in an archive. A check sum of zero is not compared, unless it stands
    behind the data as well. -/
def read (a : Archive) (f : PackedFile) : Except ArchiveError (List UInt8) := do
  let header ← a.bytesAt f.start 30
  if !fileMark.isPrefixOf header then throw .notArchive
  let offset := f.start + 30 + numberAt header 26 2 + numberAt header 28 2
  let bytes ← f.unpack (if f.packedSize < 0x8000000000000000 then a.take offset.toNat f.packedSize
    else a.drop offset.toNat)
  if bytes.length ≠ f.size then throw .truncated
  if f.isDescribed then
    if (← describedSum a (signed (offset + f.packedSize))) ≠ f.sum then throw .corrupt
    if checkSum bytes ≠ f.sum then throw .corrupt
  else if f.sum ≠ 0 ∧ checkSum bytes ≠ f.sum then throw .corrupt
  return bytes

end ClassAudit.PackedFile
