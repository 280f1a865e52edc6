import Axiomata.CommandLine.Basic

/-!
# Directories

A directory is a number of files and folders by their places. Reading it is what reading a file system
gives to a run that starts in that directory. A path is walked name by name, and each name has to be
looked up in a folder, so a step back does not undo a step that was not possible. Putting a file walks
its path as well, and makes the folders on the way.
-/

namespace Axiomata.CommandLine

/-- Where a walk has come to. Nothing is known of what lies outside, except that the places on the way
back from the start are folders. -/
inductive Place where
  | inside (path : List String)
  | outside
deriving DecidableEq, Repr

/-- A name that stays in its folder. -/
def staysHere (name : String) : Bool := name == "" || name == "."

namespace Place

/-- Where walks start. -/
def start : Place := .inside []

/-- Where a name leads, if every name can be followed. -/
def step : Place → String → Place
  | .outside, _ => .outside
  | .inside path, name =>
    if staysHere name then .inside path
    else if name == ".." then if path.isEmpty then .outside else .inside path.dropLast
    else .inside (path ++ [name])

/-- The places that names lead to, one after the other. -/
def trail (place : Place) : List String → List Place
  | [] => []
  | name :: names => place.step name :: (place.step name).trail names

end Place

structure Directory where
  /-- A file that comes later is hidden by an earlier one in the same place. -/
  files : List (Place × ByteArray) := []
  folders : List Place := [.start]
deriving Inhabited

namespace Directory

variable (d : Directory)

/-- Puts a file where its path leads. It takes the place of a file that was there, and whatever the
path goes through becomes a folder. -/
def put (path : String) (bytes : ByteArray) : Directory :=
  match (Place.start.trail (path.splitOn "/")).reverse with
  | [] => d
  | last :: before => { files := (last, bytes) :: d.files, folders := before ++ d.folders }

def ofFiles (files : List (String × ByteArray)) : Directory :=
  files.foldl (fun d (path, bytes) => d.put path bytes) {}

def bytes? (place : Place) : Option ByteArray := (d.files.find? (·.1 == place)).map Prod.snd

def hasFolder (place : Place) : Bool := place == .outside || d.folders.contains place

/-- Names have at most this many bytes. -/
def maxName : Nat := 255

/-- Paths have at most this many bytes. -/
def maxPath : Nat := 4095

/-- Follows one name. -/
def enter (place : Place) (name : String) : Except ReadFailure Place :=
  if !d.hasFolder place then .error .notADirectory
  else if staysHere name || name == ".." then .ok (place.step name)
  else if name.utf8ByteSize > maxName then .error .nameTooLong
  else if place == .outside then .error .notFound
  else if d.hasFolder (place.step name) || (d.bytes? (place.step name)).isSome then
    .ok (place.step name)
  else .error .notFound

/-- Follows the names of a path from the start, or from the root if it begins with a slash. -/
def walk (path : String) : Except ReadFailure Place :=
  if path.isEmpty then .error .notFound
  else if path.utf8ByteSize > maxPath then .error .nameTooLong
  else (path.splitOn "/").foldlM d.enter (if path.startsWith "/" then .outside else .start)

/-- The text of a file. -/
def read (path : String) : Except ReadFailure String :=
  match d.walk path with
  | .error failure => .error failure
  | .ok place =>
    if d.hasFolder place then .error .isDirectory
    else
      match d.bytes? place with
      | none => .error .notFound
      | some bytes =>
        match String.fromUTF8? bytes with
        | some text => .ok text
        | none => .error .notUtf8

/-- Carries out the arguments in a directory. -/
def run (args : List String) : Report := respond d.read args

end Directory

end Axiomata.CommandLine
