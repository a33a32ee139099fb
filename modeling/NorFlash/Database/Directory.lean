import NorFlash.Database.Basic
import NorFlash.Files.Tree

namespace NorFlash

/-- What follows the last point of a file's name. A point in front starts no extension. -/
def extension? (name : String) : Option String :=
  match (name.splitOn ".").reverse with
  | last :: rest => if rest.isEmpty || rest == [""] then none else some last
  | [] => none

namespace Database

def loadFile (parse : VendorFile.Parser) (d : Database) (fs : Files) (path : String) :
    Except DatabaseError (Nat × Database) :=
  match fs.readText path with
  | .error e => .error (.io e)
  | .ok text => d.load parse text

/-- Loads files up to the first that fails, and gives their number of chips or why one failed. -/
def loadFiles (parse : VendorFile.Parser) (fs : Files) :
    List String → Nat → Database → Except DatabaseError Nat × Database
  | [], n, d => (.ok n, d)
  | path :: paths, n, d =>
    match d.loadFile parse fs path with
    | .error e => (.error e, d)
    | .ok (k, d) => loadFiles parse fs paths (n + k) d

/-- The names of the vendor files among some names, in order. -/
def vendorFiles (names : List String) : List String :=
  (names.filter fun n => extension? n == some "ron").mergeSort fun a b => !(b < a)

def loadDirectory (parse : VendorFile.Parser) (d : Database) (fs : Files) (path : String) :
    Except DatabaseError Nat × Database :=
  match fs.list path with
  | .error e => (.error (.io e), d)
  | .ok names => loadFiles parse fs ((vendorFiles names).map (Files.inside path)) 0 d

end Database
end NorFlash
