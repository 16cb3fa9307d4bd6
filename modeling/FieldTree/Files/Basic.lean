import FieldTree.Files.Path
import FieldTree.Json.Decoding

/-!
# Files

What a program needs of a file system is a handful of operations, `Files.Access`, in any monad. One instance
is a tree of files in memory, `FileTree`, so that what a program does to files can be stated and computed;
another is the disk.

A path is followed component by component, and every component but the last has to name a directory, `.` and
`..` included. A path that ends in a slash can only name a directory.

## Architecture

- `Files.WriteFault`: why a file was not written, and how far the write came.
- `Files.Access`: reading, writing, making directories.
- `Files.Access.makeDirectories`: a directory with those above it that are missing.
- `FileTree`: files and directories under one directory, and the operations on it.
- `Blob.ofJsonFile`: a blob from a file.
-/

namespace FieldTree

namespace Files

/-- Why a file was not written. A write opens the file first, which makes it or takes away what was in it, and then
    puts the bytes into it. -/
inductive WriteFault where
  | notMade (fault : Fault)
  | notFilled (fault : Fault)
  deriving DecidableEq, Repr

/-- The operations on files. A path is given as a text. -/
structure Access (m : Type → Type) where
  read : String → m (Except Fault Bytes)
  isPresent : String → m Bool
  isDirectory : String → m Bool
  /-- makes one directory where there is nothing yet -/
  makeDirectory : String → m (Except Fault Unit)
  /-- replaces the whole content, or makes the file -/
  write : String → Bytes → m (Except WriteFault Unit)

namespace Access

variable {m : Type → Type} [Monad m]

/-- The text that a file's bytes spell. -/
def asText (bytes : Bytes) : Except Fault String :=
  match Bytes.text? bytes with
  | some text => .ok text
  | none => .error .notText

/-- Reads a file as text. -/
def readText (files : Access m) (path : String) : m (Except Fault String) := do
  return (← files.read path).bind asText

/-- Makes a directory, unless it is there. -/
def ensureDirectory (files : Access m) (path : String) : m (Except Fault Unit) := do
  match ← files.makeDirectory path with
  | .error .alreadyExists =>
    if ← files.isDirectory path then return .ok () else return .error .alreadyExists
  | result => return result

/-- Makes the first directory of the list. Where there is nothing that it could lie in, the rest of the list
    is made first. -/
def ensureChain (files : Access m) : List String → m (Except Fault Unit)
  | [] => return .ok ()
  | path :: above => do
    match ← files.ensureDirectory path with
    | .error .notFound =>
      match ← files.ensureChain above with
      | .error fault => return .error fault
      | .ok () => files.ensureDirectory path
    | result => return result

/-- Makes a directory and those above it that are missing. The empty path stands for none. -/
def makeDirectories (files : Access m) (path : String) : m (Except Fault Unit) :=
  if path = "" then return .ok () else files.ensureChain (Path.ancestors path)

end Access

end Files

/-! ## Trees in memory -/

/-- What a path names. -/
inductive FileTree.Node where
  | directory
  | file (bytes : Bytes)
  deriving DecidableEq, Repr

/-- Files and directories below one directory, by their components. -/
structure FileTree where
  nodes : List (List String × FileTree.Node) := []
  deriving DecidableEq, Repr

namespace FileTree

open Files (Fault)

/-! ### Places -/

/-- What is at a place; the place without components is the directory itself. -/
def node? (t : FileTree) (place : List String) : Option Node :=
  if place = [] then some .directory else t.nodes.lookup place

/-- Puts a node at a place. -/
def set (t : FileTree) (place : List String) (node : Node) : FileTree :=
  ⟨(place, node) :: t.nodes.filter (·.1 ≠ place)⟩

/-- The place to which a component leads from a directory. The directory above all is its own parent. -/
def step (place : List String) (c : String) : List String :=
  if c = "." then place else if c = ".." then place.dropLast else place ++ [c]

/-- The largest size of a component in bytes. -/
def maxName : Nat := 255

/-- The largest size of a path in bytes. -/
def maxPath : Nat := 4095

/-- Follows components from a directory on, through directories only. -/
def enter (t : FileTree) : (place : List String) → List String → Except Fault (List String)
  | place, [] => .ok place
  | place, c :: rest =>
    if maxName < c.utf8ByteSize then .error .nameTooLong
    else
      match t.node? (step place c) with
      | none => .error .notFound
      | some (.file _) => .error .notDirectory
      | some .directory => enter t (step place c) rest

/-- The directory in which the last component of a path is looked up, and that component. A path of slashes
    only names the directory above all. -/
def approach (t : FileTree) (path : String) : Except Fault (List String × String) :=
  if path = "" then .error .notFound
  else if maxPath < path.utf8ByteSize then .error .nameTooLong
  else
    let components := Path.components path
    (t.enter [] components.dropLast).map fun place => (place, components.getLast?.getD ".")

/-- The place that the last component of a path leads to. -/
def locate (t : FileTree) (path : String) : Except Fault (List String) :=
  match t.approach path with
  | .error fault => .error fault
  | .ok (place, last) =>
    if maxName < last.utf8ByteSize then .error .nameTooLong else .ok (step place last)

/-- What a path names. -/
def find (t : FileTree) (path : String) : Except Fault Node :=
  match t.locate path with
  | .error fault => .error fault
  | .ok place =>
    match t.node? place with
    | none => .error .notFound
    | some .directory => .ok .directory
    | some (.file bytes) =>
      if Path.endsInSlash path then .error .notDirectory else .ok (.file bytes)

/-! ### Operations -/

/-- The bytes of a file. -/
def read (t : FileTree) (path : String) : Except Fault Bytes :=
  match t.find path with
  | .error fault => .error fault
  | .ok .directory => .error .isDirectory
  | .ok (.file bytes) => .ok bytes

/-- Whether a path names something. -/
def isPresent (t : FileTree) (path : String) : Bool := (t.find path).isOk

/-- Whether a path names a directory. -/
def isDirectory (t : FileTree) (path : String) : Bool :=
  match t.find path with
  | .ok .directory => true
  | _ => false

/-- Makes a directory where there is nothing yet. -/
def makeDirectory (t : FileTree) (path : String) : Except Fault FileTree :=
  match t.locate path with
  | .error fault => .error fault
  | .ok place =>
    if (t.node? place).isSome then .error .alreadyExists else .ok (t.set place .directory)

/-- Replaces the content of a file, or makes the file. -/
def write (t : FileTree) (path : String) (bytes : Bytes) : Except Fault FileTree :=
  match t.approach path with
  | .error fault => .error fault
  | .ok (place, last) =>
    if Path.endsInSlash path then .error .isDirectory
    else if maxName < last.utf8ByteSize then .error .nameTooLong
    else if t.node? (step place last) = some .directory then .error .isDirectory
    else .ok (t.set (step place last) (.file bytes))

/-! ### Trees as a file system -/

/-- A change that may fail, as a step that keeps the tree on failure. -/
def update {ε : Type} (change : FileTree → Except ε FileTree) : StateM FileTree (Except ε Unit) :=
  fun t =>
    match change t with
    | .error fault => (.error fault, t)
    | .ok t => (.ok (), t)

/-- The operations on files, on a tree in memory. -/
def access : Files.Access (StateM FileTree) where
  read path := fun t => (t.read path, t)
  isPresent path := fun t => (t.isPresent path, t)
  isDirectory path := fun t => (t.isDirectory path, t)
  makeDirectory path := update (·.makeDirectory path)
  -- there is room for all bytes in memory, so only the first step of a write can fail
  write path bytes := update fun t => (t.write path bytes).mapError .notMade

end FileTree

/-! ## Blobs from files -/

/-- A new blob with the value of the JSON text in a file. -/
def Blob.ofJsonFile {m : Type → Type} [Monad m] (files : Files.Access m) (path : String) :
    m (Except BlobError Blob × Journal) := do
  match ← files.readText path with
  | .error fault => return (.error (.unreadable path fault), [])
  | .ok text => return Blob.ofJson {} text

end FieldTree
