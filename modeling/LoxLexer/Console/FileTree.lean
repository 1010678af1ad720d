/-!
# Files

A file is bytes, which may fail to be read and may fail to be text.  A session is given what reads
them as a function on paths, and names a file by the last part of its path.

`FileTree` is one way to make up such a function: files and directories below a working directory,
read by path (`FileTree.read`).  It stands for the file system where a session is run on files that
are given with it.  No session looks into a tree, and nothing that is proved of sessions rests on
one: they are about any function that reads.
-/

namespace LoxLexer

/-- Why the text of a file cannot be had. -/
inductive ReadFailure where
  | notFound
  | notADirectory
  | isADirectory
  | notUtf8
  | other (reason : String)
  deriving DecidableEq, Repr

def ReadFailure.message : ReadFailure → String
  | .notFound => "No such file or directory (os error 2)"
  | .notADirectory => "Not a directory (os error 20)"
  | .isADirectory => "Is a directory (os error 21)"
  | .notUtf8 => "stream did not contain valid UTF-8"
  | .other reason => reason

/-- The text in UTF-8 that bytes hold. -/
def decodeText (content : ByteArray) : Except ReadFailure String :=
  match String.fromUTF8? content with
  | some text => .ok text
  | none => .error .notUtf8

/-- The last part of a path. -/
def baseName (path : String) : String :=
  String.ofList (path.toList.reverse.takeWhile (· ≠ '/')).reverse

/-! ## A working directory

A path is followed name by name: only a directory has anything below it, `.` and `..` and an empty
name included.  The directories above the working directory exist, but nothing else in them is
known.
-/

inductive FileTree.Entry where
  | file (content : ByteArray)
  | directory

/-- The entries below a working directory, each with the names that lead to it. -/
structure FileTree where
  entries : List (List String × FileTree.Entry)

namespace FileTree

def empty : FileTree := ⟨[]⟩

/-- What the names lead to from the working directory. -/
def find? (tree : FileTree) (names : List String) : Option Entry :=
  if names = [] then some .directory
  else (tree.entries.find? (·.1 = names)).map (·.2)

def addFile (tree : FileTree) (names : List String) (content : ByteArray) : FileTree :=
  ⟨(names, .file content) :: tree.entries⟩

/-- Adds a directory, unless something is there. -/
def addDirectory (tree : FileTree) (names : List String) : FileTree :=
  match tree.find? names with
  | some _ => tree
  | none => ⟨(names, .directory) :: tree.entries⟩

/-- Goes from the directory `here` to another one, which is added if need be. -/
def enter (here : FileTree × List String) (name : String) : FileTree × List String :=
  let (tree, names) := here
  if name ∈ ["", "."] then here
  else if name = ".." then (tree, names.dropLast)
  else (tree.addDirectory (names ++ [name]), names ++ [name])

/-- Adds a file with the directories on the way, or only these if the path ends with a slash. -/
def insert (tree : FileTree) (path : String) (content : ByteArray) : FileTree :=
  let names := path.splitOn "/"
  let (tree, here) := names.dropLast.foldl enter (tree, [])
  match names.getLast? with
  | none | some "" => tree
  | some name => tree.addFile (here ++ [name]) content

/-- A place that a path has led to. -/
inductive Place where
  | inside (names : List String) (entry : Entry)
  | above

def Place.follow (tree : FileTree) (name : String) : Place → Except ReadFailure Place
  | .above => if name ∈ ["", ".", ".."] then .ok .above else .error .notFound
  | .inside _ (.file _) => .error .notADirectory
  | .inside names .directory =>
    if name ∈ ["", "."] then .ok (.inside names .directory)
    else if name = ".." then
      if names = [] then .ok .above else .ok (.inside names.dropLast .directory)
    else
      match tree.find? (names ++ [name]) with
      | some entry => .ok (.inside (names ++ [name]) entry)
      | none => .error .notFound

def read (tree : FileTree) (path : String) : Except ReadFailure ByteArray := do
  if path = "" then throw .notFound
  let start := if path.startsWith "/" then .above else .inside [] .directory
  let place ← (path.splitOn "/").foldlM (fun place name => Place.follow tree name place) start
  match place with
  | .inside _ (.file content) => return content
  | _ => throw .isADirectory

end FileTree

end LoxLexer
