import ClassAudit.ClassPath.Cache
import ClassAudit.Files.Walk

/-! # Class paths

    A class path finds classes by their names in directories and archives, asked in order. Classes
    that have been read are kept in a cache. `ClassPath.find` looks a class up without the cache.
-/

namespace ClassAudit

/-! ### Looking up entries of archives -/

/-- The name under which an entry of an archive is found: a clean path that neither starts at the
    root nor leads out of the archive. -/
def ArchiveEntry.lookupName (e : ArchiveEntry) : Path :=
  let slashed : Path := ⟨e.name.bytes.map fun b => if b = backslash then Path.slash else b⟩
  let cleaned := slashed.clean
  ⟨dropParents (if cleaned.isAbsolute then cleaned.bytes.drop 1 else cleaned.bytes)⟩
where
  backslash : UInt8 := 0x5c
  dropParents : List UInt8 → List UInt8
    | 0x2e :: 0x2e :: 0x2f :: rest => dropParents rest
    | bytes => bytes

def isLookupName (name : Path) : Bool :=
  (name.split Path.slash).all fun part =>
    !part.isEmpty && part ≠ Path.here && part ≠ Path.above

/-- The entries of an archive under the names by which they are found. -/
abbrev ArchiveIndex := List (Path × ArchiveEntry)

def ArchiveIndex.of (entries : List ArchiveEntry) : ArchiveIndex :=
  entries.map fun e => (e.lookupName, e)

/-- The bytes of the entry of an archive with a name, or nothing if there is none. The first of
    several entries with the name counts. A name is also that of a directory if other entries lie
    below it. -/
def ArchiveIndex.bytes (index : ArchiveIndex) (a : Archive) (name : Path) :
    Except Failure (Option (List UInt8)) :=
  let isDirectory : Failure := .file ⟨"read", name, .isDirectory⟩
  if isLookupName name then
    match index.lookup name with
    | some e =>
      if e.isDirectory then .error isDirectory
      else ((e.file.read a).map some).mapError .archive
    | none =>
      let below := name ++ ⟨[Path.slash]⟩
      if index.any fun p => p.1.startsWith below then .error isDirectory else .ok none
  else .error (.file ⟨"open", name, .invalid⟩)

/-! ### Class paths -/

inductive ClassRoot
  | directory (path : Path)
  /-- An archive that has been opened: the number of its file, and the entries that it had then. -/
  | archive (path : Path) (number : Nat) (index : ArchiveIndex)

structure ClassPath where
  roots : List ClassRoot
  cache : Cache ClassFile

namespace ClassRoot

def ofPath (t : FileTree) (path : Path) : Except Failure ClassRoot :=
  match t.stat path with
  | .error e => .error (.within "hierarchy" (.file e))
  | .ok (.directory _) => .ok (.directory path)
  | .ok _ =>
    match openArchive with
    | .ok root => .ok root
    | .error e => .error (.classFile path.shown e)
where
  openArchive : Except Failure ClassRoot := do
    let number ← (t.fileNumber path).mapError .file
    let entries ← (Archive.entries ⟨path, t.content number⟩).mapError .archive
    return .archive path number (.of entries)

def fileName (name : String) : Path :=
  name ++ ".class"

def classPath (name : String) : ClassRoot → Path
  | .directory path => Path.join [path, fileName name]
  | .archive path _ _ => path ++ ("!/" : ByteString) ++ fileName name

/-- The bytes of a class in a root, or nothing if it has no such class. Of an archive its file is
    read as it is now. -/
def bytes (t : FileTree) (r : ClassRoot) (name : String) : Except Failure (Option (List UInt8)) :=
  match r with
  | .archive path number index => index.bytes ⟨path, t.content number⟩ (fileName name)
  | .directory _ =>
    match t.read (r.classPath name) with
    | .ok bytes => .ok (some bytes)
    | .error e => if e.reason = .missing then .ok none else .error (.file e)

def entryCount : ClassRoot → Nat
  | .directory _ => 0
  | .archive _ _ index => index.length

end ClassRoot

namespace ClassPath

/-- The number of classes that commands keep in the cache. -/
def defaultSize : Nat := 1024

def ofRoots (t : FileTree) (size : Int) (roots : List Path) : Except Failure ClassPath := do
  if size < 1 then throw (.text "hierarchy: must provide a positive size")
  return ⟨← roots.mapM (ClassRoot.ofPath t), .empty size.toNat⟩

def find (t : FileTree) (name : String) : List ClassRoot → Except Failure ClassFile
  | [] => .error (.classNotFound name)
  | root :: roots =>
    match root.bytes t name with
    | .error e => .error (.classFile (root.classPath name).shown e)
    | .ok none => find t name roots
    | .ok (some bytes) =>
      match ClassFile.parse bytes with
      | .ok cf => .ok cf
      | .error e => .error (.classFile (root.classPath name).shown (.malformed e))

/-- The class with a name, from the cache if it is there. A class that has been found is kept in
    the cache. -/
def load (t : FileTree) (cp : ClassPath) (name : String) :
    Except Failure ClassFile × ClassPath :=
  match cp.cache.get? name with
  | some (cf, cache) => (.ok cf, { cp with cache })
  | none =>
    match find t name cp.roots with
    | .ok cf => (.ok cf, { cp with cache := cp.cache.add name cf })
    | .error e => (.error e, cp)

end ClassPath

end ClassAudit
