/-! # Files as the command line sees them

The command line reads and writes files through a `Disk`, so that it can be run on real files and on a
folder in memory alike. Paths are divided by slashes; `.` names a directory itself and `..` the one
around it. -/

namespace Clausal

/-- How files are read and written. Failures carry the reason that is shown to the user. -/
structure Disk (m : Type → Type) where
  read : String → m (Except String String)
  isFile : String → m Bool
  write : String → String → m (Except String Unit)

/-! ### Paths -/

namespace Path

def steps (path : String) : List String := (path.splitOn "/").filter (· ≠ "")

def components (path : String) : List String := (steps path).filter (· ≠ ".")

def isAbsolute (path : String) : Bool := path.toList.head? = some '/'

/-- A path that ends in a slash, and so insists on a directory. -/
def endsInSlash (path : String) : Bool := path.toList.getLast? = some '/'

/-- The name at the end of a path; nothing when the path ends in `..` or names nothing. -/
def fileName (path : String) : String :=
  match (components path).getLast? with
  | some ".." | none => ""
  | some name => name

/-- A path without the slashes and single dots at its end, given in reverse. A leading slash or dot
stays. -/
def trimmed : List Char → List Char
  | '/' :: c :: rest => trimmed (c :: rest)
  | '.' :: '/' :: c :: rest => trimmed (c :: rest)
  | '.' :: '/' :: [] => ['/']
  | path => path

def parent? (path : String) : Option String :=
  match trimmed path.toList.reverse with
  | [] | ['/'] => none
  | reversed => some (String.ofList (trimmed (reversed.dropWhile (· ≠ '/'))).reverse)

def join (directory name : String) : String :=
  if directory = "" then name
  else if directory.toList.getLast? = some '/' then directory ++ name
  else directory ++ "/" ++ name

end Path

/-! ### A folder in memory -/

/-- Why a file could not be read or written. -/
inductive DiskFault where
  | notFound
  | notADirectory
  | isADirectory
  | nameTooLong
  | nulInPath
  | notText
deriving DecidableEq, Repr

def DiskFault.text : DiskFault → String
  | notFound => "No such file or directory (os error 2)"
  | notADirectory => "Not a directory (os error 20)"
  | isADirectory => "Is a directory (os error 21)"
  | nameTooLong => "File name too long (os error 36)"
  | nulInPath => "file name contained an unexpected NUL byte"
  | notText => "stream did not contain valid UTF-8"

/-- Files by their places, each once. A place is a list of names from the working directory on; it
starts with `..` once for each directory that it goes up, and with `/` if it is absolute. A directory
exists as far as a file is in it, but those around the working directory, and the root, always do. -/
structure Folder where
  files : List (List String × ByteArray) := []

namespace Folder

def nameLimit : Nat := 255

def pathLimit : Nat := 4095

def file? (f : Folder) (place : List String) : Option ByteArray := f.files.lookup place

def isDirectory (f : Folder) (place : List String) : Bool :=
  place.all (· = "..") || place = ["/"] ||
    f.files.any fun (p, _) => place.isPrefixOf p && place.length < p.length

def put (f : Folder) (place : List String) (content : ByteArray) : Folder :=
  { files := (place, content) :: f.files.filter (·.1 ≠ place) }

/-- One step from a directory, which is given in reverse. -/
def step (place : List String) (name : String) : List String :=
  if name = "." then place
  else if name ≠ ".." then name :: place
  else match place with
    | [] => [".."]
    | last :: outer =>
      if last = ".." then ".." :: place else if last = "/" then place else outer

def start (path : String) : List String := if Path.isAbsolute path then ["/"] else []

/-- The place that a path names, if all directories on the way exist. -/
def place (path : String) : List String := ((Path.steps path).foldl step (start path)).reverse

/-- Follow the steps of a path from a directory, which is given in reverse. Each step needs a directory
to start from; the last one may lead to nothing. -/
def follow (f : Folder) (place : List String) : List String → Except DiskFault (List String)
  | [] => .ok place.reverse
  | name :: rest =>
    if f.isDirectory place.reverse then
      if nameLimit < name.utf8ByteSize then .error .nameTooLong
      else f.follow (step place name) rest
    else if (f.file? place.reverse).isSome then .error .notADirectory
    else .error .notFound

/-- Where the steps of a path lead, if it can be a path at all. -/
def locate (f : Folder) (path : String) (steps : List String) : Except DiskFault (List String) :=
  if path.toList.contains (Char.ofNat 0) then .error .nulInPath
  else if path = "" then .error .notFound
  else if pathLimit < path.utf8ByteSize then .error .nameTooLong
  else f.follow (start path) steps

def bytes (f : Folder) (path : String) : Except DiskFault ByteArray := do
  let place ← f.locate path (Path.steps path)
  match f.file? place with
  | some content => if Path.endsInSlash path then .error .notADirectory else .ok content
  | none => .error (if f.isDirectory place then .isADirectory else .notFound)

def read (f : Folder) (path : String) : Except DiskFault String := do
  match String.fromUTF8? (← f.bytes path) with
  | some text => .ok text
  | none => .error .notText

/-- Write a text to the file that a path names. Of a path that ends in a slash only the way to its
last step is looked at, since no file can be made there. -/
def write (f : Folder) (path content : String) : Except DiskFault Folder := do
  if Path.endsInSlash path then
    let _ ← f.locate path ((Path.steps path).dropLast ++ ["."])
    .error .isADirectory
  else
    let place ← f.locate path (Path.steps path)
    if f.isDirectory place then .error .isADirectory else .ok (f.put place content.toUTF8)

def disk : Disk (StateM Folder) where
  read path := return (← get).read path |>.mapError DiskFault.text
  isFile path := return ((← get).bytes path).toBool
  write path content := do
    match (← get).write path content with
    | .ok f =>
      set f
      return .ok ()
    | .error fault => return .error fault.text

end Folder

end Clausal
