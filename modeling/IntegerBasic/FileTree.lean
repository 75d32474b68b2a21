/-!
# File trees

A file tree is a file, or a directory that holds file trees by name. A path is
followed name by name, from the root if it starts with a slash and from a place in
the tree otherwise. A part that is empty or a single dot stays where it is, two dots
lead to the directory above, and above the root is the root itself. What is wrong
with a path is found where following it from left to right first meets it.
-/

namespace IntegerBasic

inductive FileTree
  | file (bytes : List UInt8)
  | directory (entries : List (String × FileTree))

inductive PathFault
  | absent
  | directory
  /-- The path goes on after the name of a file. -/
  | beyondFile
  | nameTooLong
  deriving DecidableEq, Repr

namespace PathFault

def message : PathFault → String
  | .absent => "No such file or directory (os error 2)"
  | .directory => "Is a directory (os error 21)"
  | .beyondFile => "Not a directory (os error 20)"
  | .nameTooLong => "File name too long (os error 36)"

end PathFault

namespace FileTree

def maxName : Nat := 255

def maxPath : Nat := 4095

/-- The bytes that the parts of a path lead to from `here`, below the directories
`above`, the nearest first. -/
def follow (above : List FileTree) (here : FileTree) :
    List String → Except PathFault (List UInt8)
  | [] =>
    match here with
    | .file bytes => .ok bytes
    | .directory _ => .error .directory
  | part :: rest =>
    match here with
    | .file _ => .error .beyondFile
    | .directory entries =>
      if part = "" ∨ part = "." then
        follow above here rest
      else if part = ".." then
        match above with
        | [] => follow [] here rest
        | parent :: higher => follow higher parent rest
      else if maxName < part.utf8ByteSize then
        .error .nameTooLong
      else
        match entries.find? fun e => e.1 = part with
        | none => .error .absent
        | some e => follow (here :: above) e.2 rest

end FileTree

/-- A place in a file tree: what is there, and the directories above it, the nearest
first. -/
structure Place where
  here : FileTree
  above : List FileTree := []

namespace Place

def root (p : Place) : FileTree :=
  p.above.getLastD p.here

def content (p : Place) (path : String) : Except PathFault (List UInt8) :=
  if path = "" then
    .error .absent
  else if FileTree.maxPath < path.utf8ByteSize then
    .error .nameTooLong
  else if path.toList.head? = some '/' then
    FileTree.follow [] p.root (path.splitOn "/")
  else
    FileTree.follow p.above p.here (path.splitOn "/")

end Place

end IntegerBasic
