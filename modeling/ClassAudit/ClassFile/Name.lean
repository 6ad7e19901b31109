/-! # Names of classes

    Class files use internal names, with a slash between packages. A package name is what comes
    before the last slash, and the binary name has dots for slashes.
-/

namespace ClassAudit.ClassName

/-- A name with a dot for every slash. -/
def binary (name : String) : String :=
  String.ofList (name.toList.map fun c => if c = '/' then '.' else c)

/-- A name with a slash for every dot. -/
def internal (name : String) : String :=
  String.ofList (name.toList.map fun c => if c = '.' then '/' else c)

def simpleChars (name : List Char) : List Char :=
  (name.reverse.takeWhile (· ≠ '/')).reverse

/-- The part of a name before its last slash, empty if there is none. -/
def packageChars (name : List Char) : List Char :=
  ((name.reverse.dropWhile (· ≠ '/')).drop 1).reverse

def simple (name : String) : String :=
  String.ofList (simpleChars name.toList)

/-- The package of a class, with slashes. A class of the default package has an empty one. -/
def package (name : String) : String :=
  String.ofList (packageChars name.toList)

def platformRoots : List String :=
  ["java/", "javax/", "jdk/", "sun/", "org/ietf/", "org/omg/", "org/w3c/", "org/xml/"]

def isPlatform (name : String) : Bool :=
  platformRoots.any fun root => root.toList.isPrefixOf name.toList

end ClassAudit.ClassName
