import PlanFeedback.Command.Host

/-!
A tree of files in memory, on which the commands run without a disk. A place is the list of names on
the way to it; directories may be passed through, and files may not.
-/
namespace PlanFeedback.Command

open Text (Bytes)

abbrev Place := List String

structure Tree where
  files : List (Place × Bytes) := []
  folders : List Place := []
  /-- Directories in which nothing can be made. -/
  closed : List Place := []
  /-- What reads as an empty file and takes no file's content. -/
  devices : List Place := []
  deriving DecidableEq, Repr

/-- The longest name in bytes. -/
def nameLimit : Nat := 255

/-- The longest path in bytes. -/
def pathLimit : Nat := 4095

namespace Tree

/-- The tree of a system in which nothing has been written. -/
def new : Tree where
  folders :=
    ["bin", "boot", "dev", "etc", "home", "lib", "media", "mnt", "opt", "proc", "root", "run", "sbin",
      "srv", "sys", "tmp", "usr", "var"].map ([·])
  closed := [["proc"], ["sys"]]
  devices := [["dev", "null"]]

/-- The root is always there. -/
def isFolder (t : Tree) (place : Place) : Bool := place = [] ∨ place ∈ t.folders

def content? (t : Tree) (place : Place) : Option Bytes :=
  if place ∈ t.devices then some [] else t.files.lookup place

def isThere (t : Tree) (place : Place) : Bool := t.isFolder place || (t.content? place).isSome

def step? (place : Place) (name : String) : Option Place :=
  if name = "" ∨ name = "." then some place
  else if name = ".." then some place.dropLast
  else if nameLimit < name.utf8ByteSize then none
  else some (place ++ [name])

/-- The place that names lead to from another place. What is passed through must be a directory. -/
def walk? (t : Tree) (place : Place) : List String → Option Place
  | [] => some place
  | name :: rest =>
    if t.isFolder place then (step? place name).bind fun next => t.walk? next rest else none

/-- The same, with directories made on the way, and whether the end is reached. -/
def makeFolders (t : Tree) (place : Place) : List String → Tree × Bool
  | [] => (t, true)
  | name :: rest =>
    match step? place name with
    | none => (t, false)
    | some next =>
      if t.isFolder next then t.makeFolders next rest
      else if t.isThere next ∨ place ∈ t.closed then (t, false)
      else { t with folders := next :: t.folders }.makeFolders next rest

def put (t : Tree) (place : Place) (bytes : Bytes) : Tree :=
  { t with files := (place, bytes) :: t.files.filter fun file => file.1 != place }

/-- The names of a path from the root on. There are none for an empty path, one that is too long and
one with a null character. -/
def names? (working path : String) : Option (List String) :=
  if path = "" ∨ pathLimit < path.utf8ByteSize ∨ path.contains '\x00' then none
  else if Config.isAbsolute path.toList then some (path.splitOn "/")
  else some (working.splitOn "/" ++ path.splitOn "/")

def place? (t : Tree) (working path : String) : Option Place := do
  t.walk? [] (← names? working path)

/-- Makes a directory and those around it, as far as nothing is in the way. One with a dot behind its
name is not made. -/
def makeDirectory (t : Tree) (working path : String) : Tree × Bool :=
  match names? working path with
  | none => (t, false)
  | some names =>
    let named := Config.withoutEnd names
    if (names.drop named.length).contains "." then
      let (t, isMade) := t.makeFolders [] named.dropLast
      (t, isMade && (t.walk? [] names).any t.isFolder)
    else t.makeFolders [] named

/-- The tree with a file in place of what was there; a directory stays. -/
def write? (t : Tree) (working path : String) (bytes : Bytes) : Option Tree := do
  let place ← t.place? working path
  if t.isFolder place ∨ place ∈ t.devices ∨ place.dropLast ∈ t.closed then none
  else some (t.put place bytes)

def read? (t : Tree) (working path : String) : Option Bytes := do
  t.content? (← t.place? working path)

/-- The commands run in a working directory of the tree. The log is not kept. -/
def host (directories : Config.Directories) (now : Time.Instant) : Host (StateM Tree) where
  directories := directories
  isThere path := do
    let t ← get
    return (t.place? directories.working path).any t.isThere
  read? path := do return (← get).read? directories.working path
  write path bytes := do
    match (← get).write? directories.working path bytes with
    | some t =>
      set t
      return true
    | none => return false
  makeDirectory path := modifyGet fun t =>
    let (t, isMade) := t.makeDirectory directories.working path
    (isMade, t)
  now := return now
  record _ _ := return ()

end Tree

end PlanFeedback.Command
