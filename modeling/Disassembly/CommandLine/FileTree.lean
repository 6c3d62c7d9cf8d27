import Disassembly.CommandLine.Files

namespace Disassembly.CommandLine

/-- Where the names that lead to a place begin. -/
inductive Origin
  | root
  /-- So many levels above the working directory. -/
  | above (levels : Nat)
deriving DecidableEq, Repr

/-- A place in a file system: the names that lead to it from an origin. -/
structure Location where
  origin : Origin
  names : List String
deriving DecidableEq, Repr

namespace Location

def workingDirectory : Location :=
  ⟨.above 0, []⟩

def child (l : Location) (name : String) : Location :=
  ⟨l.origin, l.names ++ [name]⟩

/-- The directory around a place. The root is in itself. -/
def parent (l : Location) : Location :=
  match l.names, l.origin with
  | [], .root => l
  | [], .above levels => ⟨.above (levels + 1), []⟩
  | names, origin => ⟨origin, names.dropLast⟩

def isInside (l directory : Location) : Bool :=
  l.origin = directory.origin && directory.names.isPrefixOf l.names &&
    directory.names.length < l.names.length

end Location

/-- The bytes of the longest name. -/
def maxNameSize : Nat := 255

/-- The bytes of the longest path. -/
def maxPathSize : Nat := 4095

/-- The directories that a system has at its root. -/
def systemDirectories : List Location :=
  ["bin", "dev", "etc", "home", "lib", "opt", "proc", "sbin", "tmp", "usr", "var"].map
    fun name => ⟨.root, [name]⟩

/-- Reads as empty and keeps nothing. -/
def nullDevice : Location :=
  ⟨.root, ["dev", "null"]⟩

/-- The files of a system. The origins of locations and all that a file lies in are directories. -/
structure FileTree where
  files : List (Location × ByteArray)

/-- What a path leads to. -/
inductive Target
  | directory
  /-- An entry of a directory, which need not exist. A slash may stand behind its name. -/
  | entry (directory : Location) (name : String) (slash : Bool)
deriving DecidableEq, Repr

namespace FileTree

/-- The names between the slashes of a path. -/
def components (path : String) : List String :=
  (path.splitOn "/").filter (· ≠ "")

/-- The given files in the working directory. -/
def ofFiles (files : List (String × ByteArray)) : FileTree :=
  ⟨files.map fun file => (⟨.above 0, (components file.1).filter (· ≠ ".")⟩, file.2)⟩

def file? (t : FileTree) (l : Location) : Option ByteArray :=
  if l = nullDevice then some .empty else t.files.lookup l

def isDirectory (t : FileTree) (l : Location) : Bool :=
  l.names.isEmpty || systemDirectories.contains l || t.files.any fun file => file.1.isInside l

/-- Goes on from a directory to the one of that name. -/
def enter (t : FileTree) (l : Location) (name : String) : Except FileError Location :=
  if name = "." then .ok l
  else if name = ".." then .ok l.parent
  else if maxNameSize < name.utf8ByteSize then .error .nameTooLong
  else if (t.file? (l.child name)).isSome then .error .notDirectory
  else if t.isDirectory (l.child name) then .ok (l.child name)
  else .error .notFound

/-- Follows a path up to its last name. Whatever stands before a slash has to be a directory. -/
def resolve (t : FileTree) (path : String) : Except FileError Target := do
  if path = "" then throw .notFound
  if maxPathSize < path.utf8ByteSize then throw .nameTooLong
  let start := if path.startsWith "/" then ⟨.root, []⟩ else Location.workingDirectory
  let names := components path
  let directory ← names.dropLast.foldlM t.enter start
  match names.getLast? with
  | none => return .directory
  | some name =>
    if name = "." ∨ name = ".." then return .directory
    else return .entry directory name (path.endsWith "/")

def read (t : FileTree) (path : String) : Except FileError ByteArray := do
  match ← t.resolve path with
  | .directory => throw .isDirectory
  | .entry directory name slash =>
    if maxNameSize < name.utf8ByteSize then throw .nameTooLong
    match t.file? (directory.child name) with
    | some content => if slash then throw .notDirectory else return content
    | none => throw (if t.isDirectory (directory.child name) then .isDirectory else .notFound)

/-- Makes or replaces a file. A name with a slash behind it can only be a directory's. -/
def write (t : FileTree) (path : String) (text : String) : Except FileError FileTree := do
  match ← t.resolve path with
  | .directory => throw .isDirectory
  | .entry directory name slash =>
    let l := directory.child name
    if slash then throw .isDirectory
    if maxNameSize < name.utf8ByteSize then throw .nameTooLong
    if t.isDirectory l then throw .isDirectory
    return ⟨(l, text.toUTF8) :: t.files.filter fun file => file.1 ≠ l⟩

/-- The files of a tree as the state of a computation. -/
def fileSystem : FileSystem (StateM FileTree) where
  read path := return (← get).read path
  write path text := do
    match (← get).write path text with
    | .ok t =>
      set t
      return .ok ()
    | .error e => return .error e

end FileTree

end Disassembly.CommandLine
