import BareComponent.Table

/-! # Files

What a command finds under a path, and a tree of files that answers by the rules for paths: a path
starts in the working directory, or at the root if a slash stands first; one dot is the directory
itself, two dots are its parent, the root being its own; and only a directory has anything in it.
-/

namespace BareComponent.CommandLine

/-- What stands under a path. -/
inductive Entry where
  | missing
  /-- Something that is no text, such as a directory. -/
  | unreadable
  | text (content : Text)
deriving DecidableEq, Repr

/-- What a command finds under each path. -/
abbrev Files := Text → Entry

/-- What stands at the end of some ways from the root. What lies on a way is a directory. -/
abbrev FileTree := List (List Text × Entry)

namespace FileTree

/-- The way to the directory in which a command runs. The name that is given to it for the run is
not known, and an empty one is spelled by no path. -/
def workingDirectory : List Text := ["tmp", []]

/-- What is there for every command: its working directory, and the device that reads as an empty
text. -/
def standard : FileTree := [(workingDirectory, .unreadable), (["dev", "null"], .text [])]

/-- The tree that holds some texts under paths from the working directory. -/
def ofTable (files : Table Text) : FileTree :=
  let entries := files.entries.map fun (path, content) =>
    let names := path.splitOn Byte.slash
    let way := names.filter fun name => !name.isEmpty && name != Text.ofString "."
    (workingDirectory ++ way, Entry.text content)
  entries ++ standard

def entryAt (tree : FileTree) (way : List Text) : Entry :=
  match tree.find? fun entry => entry.1 == way with
  | some (_, entry) => entry
  | none => if tree.any fun entry => way.isPrefixOf entry.1 then .unreadable else .missing

def follow (tree : FileTree) (directory : List Text) : (path : List Text) → Entry
  | [] => .unreadable
  | name :: rest =>
    if name = [] ∨ name = Text.ofString "." then follow tree directory rest
    else if name = Text.ofString ".." then follow tree directory.dropLast rest
    else
      match tree.entryAt (directory ++ [name]) with
      | .missing => .missing
      | .unreadable => follow tree (directory ++ [name]) rest
      | .text content => if rest = [] then .text content else .missing

def files (tree : FileTree) : Files := fun path =>
  let start := if path.startsWith "/" then [] else workingDirectory
  tree.follow start (path.splitOn Byte.slash)

end FileTree

end BareComponent.CommandLine
