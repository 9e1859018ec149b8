/-!
Paths. That of the repository is absolute, or relative to the home directory after a tilde, or relative
to the working directory.
-/
namespace PlanFeedback.Config

/-- The directories that relative paths start from. -/
structure Directories where
  home : String
  working : String
  deriving DecidableEq, Repr

def isAbsolute (path : List Char) : Bool := path.head? == some '/'

/-- A path inside a directory; an absolute path stays as it is. -/
def inside (directory path : List Char) : List Char :=
  if isAbsolute path then path
  else if directory = [] ∨ directory.getLast? = some '/' then directory ++ path
  else directory ++ '/' :: path

/-- The full path that a path stands for. Slashes of either kind after the tilde are passed over. -/
def Directories.resolve (d : Directories) (path : String) : String :=
  match path.toList with
  | '~' :: rest =>
    String.ofList (inside d.home.toList (rest.dropWhile fun c => c == '/' || c == '\\'))
  | chars => String.ofList (inside d.working.toList chars)

/-- Names on a path without those at its end that lead nowhere. -/
def withoutEnd (names : List String) : List String :=
  (names.reverse.dropWhile fun name => name == "" || name == ".").reverse

/-- The directory that holds what a path leads to; empty for the working directory and the root. -/
def directoryOf (path : String) : String :=
  "/".intercalate (withoutEnd (withoutEnd (path.splitOn "/")).dropLast)

end PlanFeedback.Config
