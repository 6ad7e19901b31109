import ClassAudit.ClassFile.Access
import ClassAudit.ClassPath.Basic

/-! # Overridden methods

    The methods of the supertypes of a class that a method of it overrides or implements. The
    supertypes are visited level by level, each of them once. A supertype of the platform may be
    missing.
-/

namespace ClassAudit

def ClassFile.supertypes (c : ClassFile) : List String :=
  (if c.superName = "" then [] else [c.superName]) ++ c.interfaces

namespace ClassPath

def declarations (cf : ClassFile) (method descriptor : String) :
    Except DescriptorError (List CallTarget) :=
  (cf.methods.filter fun m =>
    m.name == method && m.descriptor == descriptor &&
      !Access.hasAny m.access [Access.isPrivate, Access.isStatic]).mapM
    fun m => CallTarget.ofMember cf.name m.name m.descriptor

/-- The greatest number of supertypes of a class: its superclass, and interfaces that are counted by
    two bytes. -/
def supertypeLimit : Nat := 0x10000

/-- A bound on the number of names that the classes of a class path can refer to. Each class comes
    from a file, from an entry of an archive or from the cache. -/
def nameLimit (t : FileTree) (cp : ClassPath) : Nat :=
  let archived := cp.roots.foldr (fun root total => root.entryCount + total) 0
  supertypeLimit * (t.contents.size + archived + cp.cache.entries.length)

structure Search where
  classPath : ClassPath
  visited : Std.HashSet String
  queue : List String
  found : List CallTarget

/-- Visits the first name in the queue that has not been visited, and so on. The fuel bounds the
    number of visits. -/
def search (t : FileTree) (start method descriptor : String) :
    Nat → Search → Except Failure (List CallTarget) × ClassPath
  | 0, s => (.ok s.found, s.classPath)
  | fuel + 1, s =>
    match s.queue.dropWhile s.visited.contains with
    | [] => (.ok s.found, s.classPath)
    | name :: queue =>
      let visited := s.visited.insert name
      match s.classPath.load t name with
      | (.ok cf, classPath) =>
        match declarations cf method descriptor with
        | .error e => (.error (.descriptor e), classPath)
        | .ok found =>
          search t start method descriptor fuel
            ⟨classPath, visited, queue ++ cf.supertypes, s.found ++ found⟩
      | (.error (.classNotFound missing), classPath) =>
        if ClassName.isPlatform name then
          search t start method descriptor fuel ⟨classPath, visited, queue, s.found⟩
        else
          (.error (.within ("hierarchy: supertype of " ++ start) (.classNotFound missing)),
            classPath)
      | (.error e, classPath) =>
        (.error (.within ("hierarchy: supertype of " ++ start) e), classPath)

def overrides (t : FileTree) (cp : ClassPath) (className method descriptor : String) :
    Except Failure (List CallTarget) × ClassPath :=
  match cp.load t (ClassName.internal className) with
  | (.error e, cp) => (.error e, cp)
  | (.ok start, cp) =>
    search t start.name method descriptor (cp.nameLimit t + 2)
      ⟨cp, {start.name}, start.supertypes, []⟩

end ClassPath

end ClassAudit
