import Annealing.Files.Path

/-!
# File trees

A tree holds the files and directories from the root on, and knows which of
them is the working directory. Paths are followed one piece at a time, an
absolute one from the root and any other one from the working directory, and
every piece but the last has to lead to a directory.
-/
namespace Annealing

/-- The content of a file: text, or bytes that are not the encoding of any. -/
inductive Content where
  | text (text : String)
  | binary
  deriving DecidableEq, Repr

/-- The content of a file with the given bytes. -/
def Content.ofBytes (bytes : ByteArray) : Content :=
  match String.fromUTF8? bytes with
  | some decoded => .text decoded
  | none => .binary

/-- A file or a directory of a tree. -/
inductive Node where
  | file (content : Content)
  | directory
  deriving DecidableEq, Repr

/-- Why a file cannot be used. -/
inductive FileError where
  | notFound
  | notADirectory
  | isADirectory
  | permissionDenied
  | nameTooLong
  | nulInPath
  | notText
  deriving DecidableEq, Repr

def FileError.message : FileError → String
  | .notFound => "No such file or directory (os error 2)"
  | .notADirectory => "Not a directory (os error 20)"
  | .isADirectory => "Is a directory (os error 21)"
  | .permissionDenied => "Permission denied (os error 13)"
  | .nameTooLong => "File name too long (os error 36)"
  | .nulInPath => "file name contained an unexpected NUL byte"
  | .notText => "stream did not contain valid UTF-8"

/-- A tree, given by its nodes. A node is named by the names on the way to it
from the root, and the directories on this way exist as well. -/
structure Tree where
  /-- The names on the way to the working directory, which exists. -/
  working : List String
  nodes : List (List String × Node)
  deriving DecidableEq, Repr

namespace Tree

/-- The names of the components of a path that are names. -/
def plainNames (p : Path) : List String :=
  p.components.filterMap fun
    | .name text => some text
    | _ => none

/-- The tree with nodes at the given paths from the working directory. -/
def ofPaths (working : List String) (nodes : List (Path × Node)) : Tree where
  working := working
  nodes := nodes.map fun (path, node) => (working ++ plainNames path, node)

/-- The node with the given names. -/
def node? (t : Tree) (names : List String) : Option Node :=
  match t.nodes.find? (·.1 = names) with
  | some (_, node) => some node
  | none =>
    if (t.working :: t.nodes.map Prod.fst).any names.isPrefixOf then some .directory else none

/-- Where a path leads: a node and its names. -/
abbrev Place := List String × Node

/-- Goes from a place to one of its pieces. The root is its own parent. -/
def step (t : Tree) (place : Place) (piece : String) : Except FileError Place :=
  match place with
  | (_, .file _) => .error .notADirectory
  | (names, .directory) =>
    if piece = "" ∨ piece = "." then .ok place
    else if piece = ".." then .ok (names.dropLast, .directory)
    else if 255 < piece.utf8ByteSize then .error .nameTooLong
    else match t.node? (names ++ [piece]) with
      | some node => .ok (names ++ [piece], node)
      | none => .error .notFound

/-- Follows a path. It leads nowhere if it has a NUL character or is empty or
longer than 4095 bytes. -/
def find (t : Tree) (p : Path) : Except FileError Place :=
  if p.text.toList.contains '\x00' then .error .nulInPath
  else if p.text.isEmpty then .error .notFound
  else if 4095 < p.text.utf8ByteSize then .error .nameTooLong
  else p.pieces.foldlM t.step (if p.isAbsolute then [] else t.working, .directory)

def exists? (t : Tree) (p : Path) : Bool := (t.find p).isOk

def isDirectory (t : Tree) (p : Path) : Bool :=
  match t.find p with
  | .ok (_, .directory) => true
  | _ => false

def isFile (t : Tree) (p : Path) : Bool :=
  match t.find p with
  | .ok (_, .file _) => true
  | _ => false

/-- The text of a file. -/
def read (t : Tree) (p : Path) : Except FileError String :=
  match t.find p with
  | .error e => .error e
  | .ok (_, .file (.text text)) => .ok text
  | .ok (_, .file .binary) => .error .notText
  | .ok (_, .directory) => .error .isADirectory

/-- The names in a directory, each of them once. -/
def list (t : Tree) (p : Path) : Except FileError (List String) :=
  match t.find p with
  | .error e => .error e
  | .ok (_, .file _) => .error .notADirectory
  | .ok (names, .directory) =>
    .ok ((t.working :: t.nodes.map Prod.fst).filterMap fun entry =>
      if names.isPrefixOf entry then (entry.drop names.length).head? else none).eraseDups

end Tree
end Annealing
