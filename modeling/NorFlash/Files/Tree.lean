import NorFlash.Bytes
import NorFlash.Files.OsError

namespace NorFlash

/-- The name under which the tree keeps what is not relative to it. -/
def rootName : String := "/"

/-- The name under which the tree keeps what stands beside it. -/
def parentName : String := ".."

/-- Whether a name leads out of the tree. -/
def isOutside (name : String) : Bool := name == rootName || name == parentName

inductive FileNode where
  | file (content : Bytes)
  | directory (entries : List (String × FileNode))

namespace FileNode

def empty : FileNode := .directory []

def entries : FileNode → List (String × FileNode)
  | .file _ => []
  | .directory es => es

/-- The entries with one of them set. -/
def assign (name : String) (n : FileNode) : List (String × FileNode) → List (String × FileNode)
  | [] => [(name, n)]
  | e :: es => if e.1 == name then (name, n) :: es else e :: assign name n es

/-- Bytes of the longest name that a directory can hold. -/
def longestName : Nat := 255

/-- Why a directory that does not hold a name cannot give it. -/
def absence (name : String) : OsError :=
  if longestName < name.utf8ByteSize then .nameTooLong else .notFound

/-- The entry of a name. Directories outside the tree are there, whatever they hold. -/
def child? (name : String) (es : List (String × FileNode)) : Option FileNode :=
  (es.lookup name).or (if isOutside name then some empty else none)

/-- The node at the end of a walk down. -/
def find : List String → FileNode → Except OsError FileNode
  | [], n => .ok n
  | _ :: _, .file _ => .error .notDirectory
  | name :: names, .directory es =>
    match child? name es with
    | none => .error (absence name)
    | some n => find names n

/-- The tree with a file of this content at the end of a walk down. Directories are not made on the
way. -/
def write (content : Bytes) : List String → FileNode → Except OsError FileNode
  | [], .directory _ => .error .isDirectory
  | [], .file _ => .ok (.file content)
  | _ :: _, .file _ => .error .notDirectory
  | name :: names, .directory es =>
    match child? name es with
    | some n => (write content names n).map fun n => .directory (assign name n es)
    | none =>
      if names.isEmpty && name.utf8ByteSize ≤ longestName then
        .ok (.directory (assign name (.file content) es))
      else .error (absence name)

/-- The tree with a node at the end of a walk down, and with the directories on the way. -/
def plant (node : FileNode) : List String → FileNode → FileNode
  | [], _ => node
  | name :: names, t =>
    let below := (t.entries.lookup name).getD empty
    .directory (assign name (plant node names below) t.entries)

mutual
/-- Files below the node with their paths, under the path of the node itself. -/
def listing (path : String) : FileNode → List (String × Bytes)
  | .file content => [(path, content)]
  | .directory es => listingAll path es

def listingAll (path : String) : List (String × FileNode) → List (String × Bytes)
  | [] => []
  | e :: es =>
    listing (if path.isEmpty then e.1 else path ++ "/" ++ e.1) e.2 ++ listingAll path es
end

end FileNode

/-- The names on the way to a path that goes only down. -/
def downNames (path : String) : List String :=
  (path.splitOn "/").filter fun part => !part.isEmpty && part != "."

/-- Names on the way to the directory above. -/
def above (names : List String) : List String :=
  match names.getLast? with
  | none => [parentName]
  | some last =>
    if last == rootName then names
    else if last == parentName then names ++ [parentName]
    else names.dropLast

/-- The files of a directory. -/
structure Files where
  root : FileNode := .empty

namespace Files

/-- The tree with a node at a path that goes only down. -/
def plant (path : String) (node : FileNode) (fs : Files) : Files :=
  ⟨.plant node (downNames path) fs.root⟩

/-- What is no directory cannot be walked through. -/
def requireDirectory (fs : Files) (names : List String) : Except OsError Unit :=
  match fs.root.find names with
  | .ok (.directory _) => .ok ()
  | .ok (.file _) => .error .notDirectory
  | .error e => .error e

/-- One step of a walk along a path. -/
def follow (fs : Files) (names : List String) (part : String) : Except OsError (List String) :=
  if part.isEmpty then .ok names
  else if part == "." then (fs.requireDirectory names).map fun _ => names
  else if part == ".." then (fs.requireDirectory names).map fun _ => above names
  else .ok (names ++ [part])

/-- Bytes of the longest path. -/
def longestPath : Nat := 4095

/-- The names on the way to a path. -/
def resolve (fs : Files) (path : String) : Except OsError (List String) :=
  if path.isEmpty then .error .notFound
  else if path.toList.contains '\x00' then .error .zeroInName
  else if longestPath < path.utf8ByteSize then .error .nameTooLong
  else (path.splitOn "/").foldlM fs.follow (if path.startsWith "/" then [rootName] else [])

/-- A slash at the end asks for a directory. -/
def asksDirectory (path : String) : Bool := path.endsWith "/"

/-- The path of a name in a directory. -/
def inside (dir name : String) : String :=
  if asksDirectory dir then dir ++ name else dir ++ "/" ++ name

/-- The tree with a node at a path whose directories it holds. -/
def learn (fs : Files) (path : String) (node : FileNode) : Files :=
  match fs.resolve path with
  | .ok names => ⟨.plant node names fs.root⟩
  | .error _ => fs

def find (fs : Files) (path : String) : Except OsError FileNode := do
  let names ← fs.resolve path
  match fs.root.find names with
  | .ok (.file content) =>
    if asksDirectory path then .error .notDirectory else .ok (.file content)
  | r => r

/-- The content of a file. -/
def read (fs : Files) (path : String) : Except OsError Bytes :=
  match fs.find path with
  | .ok (.file content) => .ok content
  | .ok (.directory _) => .error .isDirectory
  | .error e => .error e

/-- Replaces or makes a file. A path that asks for a directory is never one of a file, whether
there is anything or not. -/
def write (fs : Files) (path : String) (content : Bytes) : Except OsError Files := do
  let names ← fs.resolve path
  if asksDirectory path then
    fs.requireDirectory names.dropLast
    .error .isDirectory
  else
    return ⟨← fs.root.write content names⟩

/-- The names in a directory. -/
def list (fs : Files) (path : String) : Except OsError (List String) :=
  match fs.find path with
  | .ok (.directory es) => .ok (es.map (·.1))
  | .ok (.file _) => .error .notDirectory
  | .error e => .error e

/-- The files of the tree with their paths. -/
def listing (fs : Files) : List (String × Bytes) :=
  FileNode.listingAll "" (fs.root.entries.filter fun e => !isOutside e.1)

/-- A text file. -/
def readText (fs : Files) (path : String) : Except OsError String :=
  match fs.read path with
  | .ok content =>
    match String.fromUTF8? content with
    | some s => .ok s
    | none => .error .invalidText
  | .error e => .error e

end Files
end NorFlash
