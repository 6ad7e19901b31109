import ClassAudit.ClassFile.Collector
import ClassAudit.Failure
import ClassAudit.Files.Archive.Read
import ClassAudit.Files.Tree
import ClassAudit.Text.LowerCase

/-! # Walking through classes

    The class files below some roots, in order: of a directory all that lie below it, in the order
    of names, without those in directories that start with a dot; of an archive its entries; else
    the file itself. A walk hands the classes to a handler and ends with the first one that cannot
    be read or that the handler refuses.
-/

namespace ClassAudit

/-! ### Sources of classes -/

inductive ClassSource
  /-- The path is shown in errors, the name is handed on. -/
  | readable (path name : String) (bytes : List UInt8)
  | unreadable (path : String) (cause : Failure)

namespace ClassSource

def extension : ByteString :=
  ".class"

def isClassName (name : ByteString) : Bool :=
  name.endsWith extension

def ofFile (t : FileTree) (path : Path) : ClassSource :=
  match t.read path with
  | .ok bytes => .readable path.shown path.shown bytes
  | .error e => .unreadable path.shown (.file e)

/-- The class files at a path where an entry stands. Nothing below a directory with a dot in front
    of its name counts, unless it is the root. -/
def below (t : FileTree) (filter : ByteString → Bool) :
    Nat → (isRoot : Bool) → (path : Path) → (name : ByteString) → FileEntry → List ClassSource
  | 0, _, _, _, _ => []
  | fuel + 1, isRoot, path, name, entry =>
    match entry with
    | .directory _ =>
      if !isRoot && name.startsWith Path.here then []
      else
        match t.list path with
        | .error e => [.unreadable path.shown (.file e)]
        | .ok entries =>
          entries.flatMap fun (name, entry) =>
            below t filter fuel false (Path.join [path, name]) name entry
    | .file _ => if filter name then [ofFile t path] else []
    | .link _ => []

/-- The number of directories inside each other that no path can get through. -/
def depthLimit : Nat :=
  Path.pathLimit + 2

def ofDirectory (t : FileTree) (filter : ByteString → Bool) (root : Path) : List ClassSource :=
  match t.lstat root with
  | .error e => [.unreadable root.shown (.file e)]
  | .ok entry => below t filter depthLimit true root root.baseName entry

def ofEntry (a : Archive) (e : ArchiveEntry) : ClassSource :=
  let full := a.path.shown ++ "!/" ++ e.name.shown
  match e.file.read a with
  | .ok bytes => .readable full e.name.shown bytes
  | .error cause => .unreadable full (.archive cause)

def archive (t : FileTree) (path : Path) : Except Failure (Archive × List ArchiveEntry) := do
  let a : Archive := ⟨path, t.content (← (t.fileNumber path).mapError .file)⟩
  return (a, ← a.entries.mapError .archive)

def ofArchive (t : FileTree) (path : Path) : List ClassSource :=
  match archive t path with
  | .error e => [.unreadable path.shown e]
  | .ok (a, entries) =>
    (entries.filter fun e => !e.marksDirectory && isClassName e.name).map (ofEntry a)

def isArchivePath (path : Path) : Bool :=
  let extension := Text.lowerCase path.extension.shown
  extension == ".jar" || extension == ".zip"

def ofRoot (t : FileTree) (root : Path) : List ClassSource :=
  match t.stat root with
  | .error e => [.unreadable root.shown (.file e)]
  | .ok (.directory _) => ofDirectory t isClassName root
  | .ok _ => if isArchivePath root then ofArchive t root else [ofFile t root]

def ofRoots (t : FileTree) (roots : List Path) : List ClassSource :=
  roots.flatMap (ofRoot t)

end ClassSource

/-! ### Handlers -/

/-- What is done with a class and its name. The state is kept when the handler refuses a class. -/
abbrev Handler (σ : Type) := σ → String → ClassFile → σ × Option Failure

def Config.handler {σ : Type} (c : Config) (h : Handler σ) : Handler σ := fun s name cf =>
  if c.excludes cf.name then (s, none) else h s name cf

def Collector.handler {ε α : Type} (failure : ε → Failure) : Handler (Collector ε α) :=
  fun c _ cf =>
    match c.visit cf with
    | .ok c' => (c', none)
    | .error e => (c, some (failure e))

namespace ClassSource

def visit {σ : Type} (h : Handler σ) (s : σ) : ClassSource → σ × Option Failure
  | .unreadable path cause => (s, some (.classFile path cause))
  | .readable path name bytes =>
    match ClassFile.parse bytes with
    | .error e => (s, some (.classFile path (.malformed e)))
    | .ok cf =>
      match h s name cf with
      | (s, none) => (s, none)
      | (s, some e) => (s, some (.within ("walk: " ++ path) e))

/-- Hands classes to a handler, up to the first one that fails. -/
def visitAll {σ : Type} (h : Handler σ) (s : σ) : List ClassSource → σ × Option Failure
  | [] => (s, none)
  | source :: sources =>
    match source.visit h s with
    | (s, none) => visitAll h s sources
    | (s, some e) => (s, some e)

/-- What an analysis finds in classes. The handler that collects it can be adapted, so that it skips
    some of them. -/
def collect {ε α : Type} (adapt : Handler (Collector ε α) → Handler (Collector ε α))
    (failure : ε → Failure) (analysis : ClassFile → Except ε (List α))
    (sources : List ClassSource) : Except Failure (List α) :=
  match visitAll (adapt (Collector.handler failure)) (.new analysis) sources with
  | (c, none) => .ok c.results
  | (_, some e) => .error e

end ClassSource

end ClassAudit
