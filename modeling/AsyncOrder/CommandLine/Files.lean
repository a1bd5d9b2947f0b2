/-!
# Files

The file operations that a run needs, in any monad, and a directory held in memory that has
them.

A path leads from directory to directory.  All its names but the last have to be directories,
`.` and `..` among them; the last name may be missing in the directory it leads to, and a path
that ends in `.` or `..` has no last name.  A name has at most 255 bytes, a path less than 4096.
-/

namespace AsyncOrder

/-! ## Operations -/

inductive FileError where
  /-- The system's number of the error, and its reason. -/
  | system (code : Nat) (reason : String)
  /-- The file is no text in UTF-8. -/
  | notText
deriving DecidableEq, Repr

namespace FileError

def notFound : FileError := system 2 "No such file or directory"
def alreadyThere : FileError := system 17 "File exists"
def notDirectory : FileError := system 20 "Not a directory"
def isDirectory : FileError := system 21 "Is a directory"
def nameTooLong : FileError := system 36 "File name too long"

def text : FileError → String
  | system code reason => s!"{reason} (os error {code})"
  | notText => "stream did not contain valid UTF-8"

/-- Is a name on the path missing? -/
def isNotFound : FileError → Bool
  | system code _ => code = 2
  | notText => false

end FileError

structure Files (m : Type → Type) where
  read : String → m (Except FileError String)
  write : String → String → m (Option FileError)
  /-- Makes one directory in a directory that is there. -/
  makeDirectory : String → m (Option FileError)
  isDirectory : String → m Bool

/-! ## Making directories -/

/-- The names on a path, `.` and `..` among them. -/
def namesOn (path : String) : List String :=
  ((path.toList.splitOn '/').map String.ofList).filter fun name => !name.isEmpty

/-- The path with the given names, from the root or from where `path` begins. -/
def pathLike (path : String) (names : List String) : String :=
  (if path.startsWith "/" then "/" else "") ++ "/".intercalate names

/-- The paths of the directories above `path`, the innermost first.  A `.` is no directory of its
own, so `d/.` is directly in the directory that `d` is in. -/
def parentPaths (path : String) : List String :=
  let names := (namesOn path).filter (· ≠ ".")
  ((List.range' 1 (names.length - 1)).map fun n => pathLike path (names.take n)).reverse

section

variable {m : Type → Type} [Monad m] (files : Files m)

/-- What comes of not having made the directory: one that is there will do. -/
def unlessThere (path : String) (e : FileError) : m (Option FileError) := do
  return if ← files.isDirectory path then none else some e

/-- Makes a directory; one that is there will do. -/
def ensureDirectory (path : String) : m (Option FileError) := do
  match ← files.makeDirectory path with
  | none => return none
  | some e => unlessThere files path e

/-- Makes a directory.  When something above it is missing, makes the directories `above` it, the
innermost first in the list, and tries again. -/
def createDirectory (path : String) : (above : List String) → m (Option FileError)
  | [] => ensureDirectory files path
  | parent :: above => do
    match ← files.makeDirectory path with
    | none => return none
    | some e =>
      if e.isNotFound then
        match ← createDirectory parent above with
        | some e => return some e
        | none => ensureDirectory files path
      else unlessThere files path e

/-- Makes a directory and those above it that are missing. -/
def createDirectories (path : String) : m (Option FileError) :=
  createDirectory files path (parentPaths path)

end

/-! ## Directories in memory -/

inductive Entry where
  | file (content : ByteArray)
  | directory

/-- A place is the list of names that leads to it from the directory down, `..` for each step out
of it first; the root of the file system is the name `/`. -/
structure Directory where
  entries : List (List String × Entry)

/-- Where a path leads: a directory, or the place of a name in one. -/
inductive Destination where
  | directory (place : List String)
  /-- With a slash behind it, the name is to be a directory's. -/
  | entry (place : List String) (slash : Bool)

namespace Directory

variable (d : Directory)

/-- The directory above the one at `place`. -/
def above (place : List String) : List String :=
  match place.getLast? with
  | none | some ".." => place ++ [".."]
  | some "/" => place
  | some _ => place.dropLast

/-- What is at a place.  The root, and what lies above the directory, are directories. -/
def entry? (place : List String) : Option Entry :=
  if place = ["/"] || place.all (· = "..") then some .directory
  else (d.entries.find? (·.1 = place)).map (·.2)

def put (place : List String) (entry : Entry) : Directory :=
  ⟨d.entries.filter (·.1 ≠ place) ++ [(place, entry)]⟩

def hasLongName (place : List String) : Bool := place.any fun name => 255 < name.utf8ByteSize

/-- Enters the directory `name` from the one at `place`. -/
def enter (place : List String) (name : String) : Except FileError (List String) :=
  if name = "." then .ok place
  else if name = ".." then .ok (above place)
  else if hasLongName [name] then .error .nameTooLong
  else
    match d.entry? (place ++ [name]) with
    | some .directory => .ok (place ++ [name])
    | some (.file _) => .error .notDirectory
    | none => .error .notFound

/-- Where the names lead from `place`. -/
def follow (slash : Bool) (place : List String) : List String → Except FileError Destination
  | [] => .ok (.directory place)
  | [name] =>
    if name = "." then .ok (.directory place)
    else if name = ".." then .ok (.directory (above place))
    else .ok (.entry (place ++ [name]) slash)
  | name :: names => do
    let next ← d.enter place name
    follow slash next names

def destination (path : String) : Except FileError Destination :=
  if path.isEmpty then .error .notFound
  else if 4096 ≤ path.utf8ByteSize then .error .nameTooLong
  else
    d.follow (path.endsWith "/") (if path.startsWith "/" then ["/"] else []) (namesOn path)

def read (path : String) : Except FileError String := do
  match ← d.destination path with
  | .directory _ => .error .isDirectory
  | .entry place slash =>
    if hasLongName place then .error .nameTooLong
    else
      match d.entry? place with
      | none => .error .notFound
      | some .directory => .error .isDirectory
      | some (.file content) =>
        if slash then .error .notDirectory
        else
          match String.fromUTF8? content with
          | some text => .ok text
          | none => .error .notText

def write (path content : String) : Except FileError Directory := do
  match ← d.destination path with
  | .directory _ => .error .isDirectory
  | .entry place slash =>
    if slash then .error .isDirectory
    else if hasLongName place then .error .nameTooLong
    else
      match d.entry? place with
      | some .directory => .error .isDirectory
      | _ => .ok (d.put place (.file content.toUTF8))

def makeDirectory (path : String) : Except FileError Directory := do
  match ← d.destination path with
  | .directory _ => .error .alreadyThere
  | .entry place _ =>
    if hasLongName place then .error .nameTooLong
    else
      match d.entry? place with
      | some _ => .error .alreadyThere
      | none => .ok (d.put place .directory)

def isDirectory (path : String) : Bool :=
  match d.destination path with
  | .ok (.directory _) => true
  | .ok (.entry place _) =>
    match d.entry? place with
    | some .directory => true
    | _ => false
  | .error _ => false

/-- Changes the directory unless that fails. -/
def change (f : Directory → Except FileError Directory) : StateM Directory (Option FileError) := do
  match f (← get) with
  | .ok d => set d; return none
  | .error e => return some e

def files : Files (StateM Directory) where
  read path := return (← get).read path
  write path content := change (·.write path content)
  makeDirectory path := change (·.makeDirectory path)
  isDirectory path := return (← get).isDirectory path

end Directory

end AsyncOrder
