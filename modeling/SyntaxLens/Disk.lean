import SyntaxLens.Text.Utf8
/-!
# Disks

A `Disk` holds the contents of files by their location, the list of names that leads to a file
from the working directory. Every proper start of a location is a directory. Absolute locations
start with the name `/`, and locations outside the working directory with the name `..`.

Paths are resolved name by name: whatever stands before a name must be a directory that may be
searched. What cannot be reached counts as not there, whereas a file that may only not be read is.
-/

namespace SyntaxLens

/-- Why a file cannot be read or written. -/
inductive FileError
  | notFound
  | isDirectory
  | notDirectory
  /-- The access is refused. -/
  | denied
  /-- The bytes of the file are no text. -/
  | notText
deriving DecidableEq

/-- The wording of a refusal. -/
def FileError.message : FileError → String
  | notFound => "No such file or directory (os error 2)"
  | isDirectory => "Is a directory (os error 21)"
  | notDirectory => "Not a directory (os error 20)"
  | denied => "Permission denied (os error 13)"
  | notText => "stream did not contain valid UTF-8"

/-- The names that lead to a file or directory. -/
abbrev Location := List String

/-- What may be refused at a location: to look for a name in a directory, to read what is there, or
to change a file or the names of a directory. -/
inductive Access
  | search
  | read
  | write
deriving DecidableEq

/-- The contents of files by their location, and the accesses that are refused. -/
structure Disk where
  files : List (Location × List UInt8)
  refused : List (Location × Access)
deriving DecidableEq

namespace Disk

/-- The content of the file at a location. -/
def file? (d : Disk) (loc : Location) : Option (List UInt8) :=
  d.files.lookup loc

def isDirectory (d : Disk) (loc : Location) : Bool :=
  loc.all (· = "..") || loc = ["/"] ||
    d.files.any fun f => loc.length < f.1.length && f.1.take loc.length = loc

/-- The disk with nothing refused. -/
def unlocked (d : Disk) : Disk :=
  { d with refused := [] }

def refuses (d : Disk) (access : Access) (loc : Location) : Bool :=
  (loc, access) ∈ d.refused

/-- Puts a content at a location, in the place of the one that is there. -/
def put (d : Disk) (loc : Location) (content : List UInt8) : Disk :=
  if (d.file? loc).isSome then
    { d with files := d.files.map fun f => if f.1 = loc then (f.1, content) else f }
  else { d with files := d.files ++ [(loc, content)] }

/-- The directory above a location. -/
def parent (loc : Location) : Location :=
  if loc.all (· = "..") then loc ++ [".."] else if loc = ["/"] then loc else loc.dropLast

/-- Goes on from a location by names; each of them needs a directory to start from, which is
searched unless the name is empty. -/
def walk (d : Disk) (loc : Location) : List String → Except FileError Location
  | [] => .ok loc
  | name :: names =>
    if d.isDirectory loc then
      if name = "" then walk d loc names
      else if d.refuses .search loc then .error .denied
      else if name = "." then walk d loc names
      else if name = ".." then walk d (parent loc) names
      else walk d (loc ++ [name]) names
    else if (d.file? loc).isSome then .error .notDirectory
    else .error .notFound

def namesOf (path : String) : List String :=
  (path.toList.splitOn '/').map String.ofList

/-- The location that a path leads to. Nothing need be there. -/
def locate (d : Disk) (path : String) : Except FileError Location :=
  match namesOf path with
  | [""] => .error .notFound
  | "" :: names => d.walk ["/"] names
  | names => d.walk [] names

/-- Whether a path leads to a file or a directory. It does not if the way there is refused. -/
def contains (d : Disk) (path : String) : Bool :=
  match d.locate path with
  | .ok loc => d.isDirectory loc || (d.file? loc).isSome
  | .error _ => false

/-- The content of the file that a path leads to, whether it may be read or not. -/
def content? (d : Disk) (path : String) : Option (List UInt8) :=
  (d.locate path).toOption.bind d.file?

def read (d : Disk) (path : String) : Except FileError (List UInt8) :=
  (d.locate path).bind fun loc =>
    if d.isDirectory loc then .error (if d.refuses .read loc then .denied else .isDirectory)
    else
      match d.file? loc with
      | some content => if d.refuses .read loc then .error .denied else .ok content
      | none => .error .notFound

def readText (d : Disk) (path : String) : Except FileError String :=
  (d.read path).bind fun content =>
    match Text.Utf8.decode content with
    | .ok text => .ok text
    | .error _ => .error .notText

/-- Where a file of a path is written: to the file that is there, or else to its directory. A path
that ends in a slash names a directory. -/
def target (d : Disk) (path : String) : Except FileError Location :=
  if path.endsWith "/" then
    (d.locate ((path.dropEndWhile (· = '/')).toString)).bind fun _ => .error .isDirectory
  else
    (d.locate path).bind fun loc =>
      if d.isDirectory loc then .error .isDirectory
      else if d.refuses .write (if (d.file? loc).isSome then loc else parent loc) then
        .error .denied
      else .ok loc

/-- The disk that holds files at the given paths below the working directory. -/
def ofFiles (files : List (String × List UInt8)) : Disk :=
  ⟨files.map fun f => ((namesOf f.1).filter (· ∉ ["", "."]), f.2), []⟩

end Disk

end SyntaxLens
