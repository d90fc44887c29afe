import VertexLanes.File.Access
import VertexLanes.Source.Span

/-!
# File trees

The files and directories below a working directory as a value. A path is
followed segment by segment, and every segment needs a directory to start from.
Nothing is known of what lies outside the working directory but that it is there.
-/

namespace VertexLanes

/-- What can stand under a name. -/
inductive FileEntry where
  /-- A file with its bytes. -/
  | file (content : ByteArray)
  /-- A directory. -/
  | directory

/-- The files and directories below a working directory, by the names that lead to them. -/
structure FileTree where
  /-- The entries; the first one of a given key counts. -/
  entries : List (List (List Char) × FileEntry)

namespace FileTree

/-- A tree without entries. -/
def empty : FileTree := ⟨[]⟩

/-- Where a path can lead. -/
inductive Place where
  /-- To names below the working directory, whether there is an entry or not. -/
  | inside (names : List (List Char))
  /-- To a directory outside. -/
  | outside
deriving DecidableEq, Repr

/-- The entry at a place. -/
def entryAt (tree : FileTree) : Place → Option FileEntry
  | .inside [] => some .directory
  | .inside names => tree.entries.lookup names
  | .outside => some .directory

/-- Require a directory. -/
def requireDirectory (tree : FileTree) (place : Place) : Except FileError Unit :=
  match tree.entryAt place with
  | none => .error .notFound
  | some (.file _) => .error .notDirectory
  | some .directory => .ok ()

/-- The greatest number of bytes in a name. -/
def maxName : Nat := 255

/-- The least number of bytes that is too much for a path. -/
def pathLimit : Nat := 4096

/-- Follow one segment from a directory. -/
def step (tree : FileTree) (place : Place) (segment : List Char) : Except FileError Place := do
  tree.requireDirectory place
  if Path.isIdle segment then return place
  match place with
  | .outside => if segment == Path.upward then return .outside else throw .notFound
  | .inside names =>
    if segment == Path.upward then return if names.isEmpty then .outside else .inside names.dropLast
    if maxName < byteLength segment then throw .nameTooLong
    return .inside (names ++ [segment])

/-- Where the first segment of a path starts. -/
def start (p : Path) : Place := if p.chars.head? == some '/' then .outside else .inside []

/-- Refuse a path that cannot lead anywhere. -/
def requirePath (p : Path) : Except FileError Unit :=
  if p.chars.contains '\x00' then .error .nulInPath
  else if p.chars.isEmpty then .error .notFound
  else if pathLimit ≤ byteLength p.chars then .error .nameTooLong
  else .ok ()

/-- Follow a path to its end. -/
def resolve (tree : FileTree) (p : Path) : Except FileError Place := do
  requirePath p
  (Text.splitAtChar '/' p.chars).foldlM tree.step (start p)

/-- Read a file. -/
def read (tree : FileTree) (p : Path) : Except FileError String := do
  let place ← tree.resolve p
  match tree.entryAt place with
  | none => throw .notFound
  | some .directory => throw .isDirectory
  | some (.file content) =>
    match String.fromUTF8? content with
    | none => throw .notText
    | some text => return text

/-- Put an entry at a place below the working directory. -/
def put (tree : FileTree) (names : List (List Char)) (entry : FileEntry) : FileTree :=
  if tree.entries.any fun e => e.1 == names then
    ⟨tree.entries.map fun e => if e.1 == names then (names, entry) else e⟩
  else ⟨tree.entries ++ [(names, entry)]⟩

/-- Create a file or replace its content. Its directory has to be there, and a path that ends in a
slash never leads to a file. -/
def write (tree : FileTree) (p : Path) (text : String) : Except FileError FileTree := do
  requirePath p
  let all := Text.splitAtChar '/' p.chars
  let segments := Text.dropEndWhile List.isEmpty all
  match segments.getLast? with
  | none => throw .isDirectory
  | some name =>
    let directory ← segments.dropLast.foldlM tree.step (start p)
    tree.requireDirectory directory
    if segments.length < all.length && name != ['.'] && name != Path.upward then throw .isDirectory
    let place ← tree.step directory name
    match place, tree.entryAt place with
    | _, some .directory => throw .isDirectory
    | .outside, _ => throw .isDirectory
    | .inside names, _ => return tree.put names (.file text.toUTF8)

/-- Whether there is a file or a directory under a path. -/
def isPresent (tree : FileTree) (p : Path) : Bool :=
  match tree.resolve p with
  | .ok place => (tree.entryAt place).isSome
  | .error _ => false

/-- The names on the way to a path below the working directory. -/
def namesOf (p : Path) : List (List Char) :=
  (Text.splitAtChar '/' p.chars).filter fun s => !Path.isIdle s

/-- Add a directory with all directories on the way to it. -/
def addDirectory (tree : FileTree) (names : List (List Char)) : FileTree :=
  ((List.range names.length).map fun n => names.take (n + 1)).foldl
    (fun tree above => if (tree.entryAt (.inside above)).isSome then tree
      else tree.put above .directory) tree

/-- Add a file with all directories on the way to it. -/
def addFile (tree : FileTree) (names : List (List Char)) (content : ByteArray) : FileTree :=
  (tree.addDirectory names.dropLast).put names (.file content)

/-- The files of a tree with their paths. -/
def files (tree : FileTree) : List (Path × ByteArray) :=
  tree.entries.filterMap fun
    | (names, .file content) => some (⟨Path.joined names⟩, content)
    | (_, .directory) => none

end FileTree

instance : FileAccess (StateM FileTree) where
  read p := do return (← get).read p
  write p text := do
    match (← get).write p text with
    | .ok tree =>
      set tree
      return .ok ()
    | .error e => return .error e
  isPresent p := do return (← get).isPresent p

end VertexLanes
