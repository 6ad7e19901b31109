import ClassAudit.Files.Basic

/-! # File trees

    A file tree holds directories inside each other, and the contents of files by their numbers. A
    file that is written keeps its number, and its content is kept when its name is removed: so
    whoever has opened a file sees what is written to it, and goes on to see it when it has no name
    any more. A path is read from the working directory, or from the root if it starts with a slash;
    links on the way are followed. All operations are functions on the tree.
-/

namespace ClassAudit

abbrev Location := List ByteString

structure FileTree where
  root : Directory
  contents : Array ByteArray
  current : Location

/-- A directory that has been entered, and the directories around it, with their names. The root is
    not among them. -/
abbrev Place := List (ByteString × Directory)

namespace FileTree

/-- The tree with nothing in it but the working directory and what is around it. -/
def empty (current : Location) : FileTree :=
  ⟨current.foldr (fun name d => [(name, .directory d)]) [], #[], current⟩

def content (t : FileTree) (number : Nat) : ByteArray :=
  t.contents[number]?.getD .empty

/-! ### Places -/

def directoryAt (t : FileTree) : Place → Directory
  | [] => t.root
  | (_, d) :: _ => d

def location (place : Place) : Location :=
  (place.map Prod.fst).reverse

def enter? (t : FileTree) : Place → Location → Option Place
  | place, [] => some place
  | place, name :: names =>
    match (t.directoryAt place).lookup name with
    | some (.directory d) => enter? t ((name, d) :: place) names
    | _ => none

/-! ### Paths -/

/-- The greatest number of links on the way to a place. -/
def linkLimit : Nat := 40

inductive Target
  | found (l : Location) (e : FileEntry)
  | free (l : Location)

/-- Goes along the names in a path from a place. The last link is followed if `follow` says so, and
    the end must be a directory if `wantDirectory` does. Where a file is going to be written, as
    `write` says, no name can stand for a directory, whether there is one or not. -/
def walk (t : FileTree) (follow write wantDirectory : Bool) :
    Nat → Nat → Place → List ByteString → Except FileReason Target
  | _, _, place, [] => .ok (.found (location place) (.directory (t.directoryAt place)))
  | 0, _, _, _ => .error .tooManyLinks
  | fuel + 1, links, place, name :: rest =>
    if name = Path.here then walk t follow write wantDirectory fuel links place rest
    else if name = Path.above then
      walk t follow write wantDirectory fuel links (place.drop 1) rest
    else if write && wantDirectory && rest.isEmpty then .error .isDirectory
    else if Path.nameLimit < name.length then .error .nameTooLong
    else
      match (t.directoryAt place).lookup name with
      | none => if rest.isEmpty then .ok (.free (location place ++ [name])) else .error .missing
      | some (.directory d) =>
        walk t follow write wantDirectory fuel links ((name, d) :: place) rest
      | some (.file number) =>
        if rest.isEmpty && !wantDirectory then
          .ok (.found (location place ++ [name]) (.file number))
        else .error .notDirectory
      | some (.link target) =>
        if rest.isEmpty && !follow && !wantDirectory then
          .ok (.found (location place ++ [name]) (.link target))
        else
          match links with
          | 0 => .error .tooManyLinks
          | links + 1 =>
            walk t follow write (wantDirectory || (rest.isEmpty && target.endsWithSlash)) fuel links
              (if target.isAbsolute then [] else place) (target.names ++ rest)

/-- The number of steps that suffices for a path: each link adds its own names. -/
def stepLimit (path : Path) : Nat :=
  path.length + (linkLimit + 1) * (Path.pathLimit + 1)

def target (t : FileTree) (follow write : Bool) (path : Path) : Except FileReason Target :=
  match path.fault?, if path.isAbsolute then some [] else t.enter? [] t.current with
  | some reason, _ => .error reason
  | none, none => .error .missing
  | none, some start =>
    walk t follow write path.endsWithSlash (stepLimit path) linkLimit start path.names

/-! ### Looking -/

def look (t : FileTree) (operation : String) (follow : Bool) (path : Path) :
    Except FileError FileEntry :=
  match t.target follow false path with
  | .error reason => .error ⟨operation, path, reason⟩
  | .ok (.free _) => .error ⟨operation, path, .missing⟩
  | .ok (.found _ e) => .ok e

def stat (t : FileTree) (path : Path) : Except FileError FileEntry :=
  t.look "stat" true path

/-- What a path leads to, if its last link is not followed. -/
def lstat (t : FileTree) (path : Path) : Except FileError FileEntry :=
  t.look "lstat" false path

def fileNumber (t : FileTree) (path : Path) : Except FileError Nat :=
  match t.look "open" true path with
  | .ok (.file number) => .ok number
  | .ok _ => .error ⟨"read", path, .isDirectory⟩
  | .error e => .error e

def read (t : FileTree) (path : Path) : Except FileError (List UInt8) :=
  (t.fileNumber path).map fun number => (t.content number).toList

def list (t : FileTree) (path : Path) : Except FileError Directory :=
  match t.look "open" true path with
  | .ok (.directory d) => .ok (Directory.sorted d)
  | .ok _ => .error ⟨"open", path, .notDirectory⟩
  | .error e => .error e

def contains (t : FileTree) (path : Path) : Bool :=
  match t.stat path with
  | .ok _ => true
  | .error _ => false

/-! ### Changing -/

/-- The tree with an entry at a place, the last name of which is put into its directory. -/
def set (t : FileTree) (l : Location) (e : FileEntry) : FileTree :=
  match l.getLast? with
  | some name => { t with root := t.root.modify (·.put name e) l.dropLast }
  | none => t

def create (t : FileTree) (l : Location) (bytes : List UInt8) : FileTree :=
  { t.set l (.file t.contents.size) with contents := t.contents.push bytes.toByteArray }

/-- Writes a file. One that is there already is written anew. -/
def write (t : FileTree) (path : Path) (bytes : List UInt8) : Except FileError FileTree :=
  match t.target true true path with
  | .error reason => .error ⟨"open", path, reason⟩
  | .ok (.free l) => .ok (t.create l bytes)
  | .ok (.found _ (.file number)) =>
    .ok { t with contents := t.contents.setIfInBounds number bytes.toByteArray }
  | .ok (.found _ _) => .error ⟨"open", path, .isDirectory⟩

/-- Makes one directory, if there is none. A link that leads nowhere is in the way. -/
def makeDirectory (t : FileTree) (path : Path) : Except FileError FileTree :=
  match t.target false false path with
  | .error reason => .error ⟨"mkdir", path, reason⟩
  | .ok (.free l) => .ok (t.set l (.directory []))
  | .ok (.found _ (.directory _)) => .ok t
  | .ok (.found _ (.file _)) => .error ⟨"mkdir", path, .notDirectory⟩
  | .ok (.found _ (.link _)) =>
    match t.stat path with
    | .ok (.directory _) => .ok t
    | .ok _ => .error ⟨"mkdir", path, .notDirectory⟩
    | .error _ => .error ⟨"mkdir", path, .alreadyExists⟩

/-- Makes directories, up to the first one that cannot be made. -/
def makeEach (t : FileTree) : List Path → FileTree × Option FileError
  | [] => (t, none)
  | path :: paths =>
    match t.makeDirectory path with
    | .ok t => makeEach t paths
    | .error e => (t, some e)

/-- Makes a directory and all directories on the way to it. Those that have been made stay if one of
    them cannot be made. -/
def makeDirectories (t : FileTree) (path : Path) : FileTree × Option FileError :=
  match t.stat path with
  | .ok (.directory _) => (t, none)
  | _ => if path.isEmpty then (t, some ⟨"mkdir", path, .missing⟩) else t.makeEach path.ancestors

/-- Makes a link. Its name must not end with a slash, and what it leads to must be a path. -/
def makeLink (t : FileTree) (path target : Path) : Except FileError FileTree :=
  match t.target false false path, target.fault? with
  | .error reason, _ | .ok _, some reason => .error ⟨"symlink", path, reason⟩
  | .ok (.found _ _), none => .error ⟨"symlink", path, .alreadyExists⟩
  | .ok (.free l), none =>
    if path.endsWithSlash then .error ⟨"symlink", path, .missing⟩
    else .ok (t.set l (.link target))

/-- Removes a name, with all that lies below it. Slashes behind the name do not count, and a link is
    not followed. A directory keeps its name in itself and in those below it, and so only what is in
    it is removed by these; by a dot at the end of a path nothing is. -/
def remove (t : FileTree) (path : Path) : FileTree :=
  let inner := path.dropSlashes
  let name := inner.lastName
  let parent := if inner.beforeLast.isEmpty then Path.here else inner.beforeLast
  match t.target true false parent with
  | .ok (.found l (.directory _)) =>
    if name = Path.here then if path.endsWithSlash then clear l else t
    else if name = Path.above then clear l.dropLast
    else { t with root := t.root.modify (·.remove name) l }
  | _ => t
where
  clear (l : Location) : FileTree :=
    { t with root := t.root.modify (fun _ => []) l }

/-! ### Comparing -/

mutual

/-- The places of the files of an entry at a place, with their numbers. -/
def filesOf (l : Location) : FileEntry → List (Location × Nat)
  | .file number => [(l, number)]
  | .directory entries => filesIn l entries
  | .link _ => []

def filesIn (l : Location) : Directory → List (Location × Nat)
  | [] => []
  | (name, e) :: entries => filesOf (l ++ [name]) e ++ filesIn l entries

end

/-- The path of a place, from the working directory if it lies below that. -/
def pathOf (t : FileTree) (l : Location) : Path :=
  if t.current.isPrefixOf l then Path.ofNames false (l.drop t.current.length)
  else Path.ofNames true l

/-- The paths and the bytes of the files that an older tree does not have, or not with these
    bytes. -/
def writtenSince (t older : FileTree) : List (Path × ByteArray) :=
  (filesIn [] t.root).filterMap fun (l, number) =>
    if older.contents[number]?.any (· == t.content number) then none
    else some (t.pathOf l, t.content number)

end FileTree

end ClassAudit
