/-!
Paths and what they lead to.

A path is walked name by name. In a directory, an empty name and `.` stay there and `..` leads out of
it; behind a file no name leads anywhere, so a slash behind its name is a mistake too.
-/

namespace BranchSteer.CommandLine

inductive Obstacle
  | missing
  | notDirectory
  | nameTooLong
  | other (reason : String)
deriving DecidableEq, Repr

def Obstacle.message : Obstacle → String
  | .missing => "No such file or directory (os error 2)"
  | .notDirectory => "Not a directory (os error 20)"
  | .nameTooLong => "File name too long (os error 36)"
  | .other reason => reason

inductive PathStatus
  | file (content : String)
  | noFile
  | unreachable (obstacle : Obstacle)
deriving DecidableEq, Repr

/-- Where a walk has arrived: in a directory or at an entry of one, which holds something if it is a
file. Directories other than the working directory hold nothing. -/
inductive Place
  | directory (working : Bool)
  | entry (working : Bool) (name : String) (content : Option String)
deriving DecidableEq, Repr

structure Directory where
  files : List (String × String)

namespace Directory

def nameLimit : Nat := 255

def pathLimit : Nat := 4095

def walk (directory : Directory) (place : Place) (name : String) : Except Obstacle Place :=
  match place with
  | .entry _ _ (some _) => .error .notDirectory
  | .entry _ _ none => .error .missing
  | .directory working =>
    if name = "" ∨ name = "." then .ok place
    else if name = ".." then .ok (.directory false)
    else if name.utf8ByteSize > nameLimit then .error .nameTooLong
    else .ok (.entry working name (if working then directory.files.lookup name else none))

def place (directory : Directory) (path : String) : Except Obstacle Place :=
  if path = "" then .error .missing
  else if path.utf8ByteSize > pathLimit then .error .nameTooLong
  else (path.splitOn "/").foldlM directory.walk (.directory (path.front ≠ '/'))

def status (directory : Directory) (path : String) : PathStatus :=
  match directory.place path with
  | .ok (.entry _ _ (some content)) => .file content
  | .ok (.entry _ _ none) => .unreachable .missing
  | .ok (.directory _) => .noFile
  | .error obstacle => .unreachable obstacle

def isWritable (directory : Directory) (path : String) : Bool :=
  match directory.place path with
  | .ok (.entry ..) => true
  | _ => false

def leadsTo (directory : Directory) (name path : String) : Bool :=
  match directory.place path with
  | .ok (.entry true found _) => found = name
  | _ => false

end Directory

end BranchSteer.CommandLine
