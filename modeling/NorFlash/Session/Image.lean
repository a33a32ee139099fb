import NorFlash.Files.Store
import NorFlash.Session.Failure

namespace NorFlash.Image

variable {ω : Type} (files : FileStore ω)

def longNotice (path : String) (length size : Nat) : Notice :=
  .warn fun _ =>
    s!"{path} is {length} bytes, larger than the {size} byte chip; only the first {size} bytes " ++
      "are used"

def loadedNotice (path : String) (n : Nat) : Notice :=
  .debug fun _ => s!"Loaded {n} bytes from {path}"

def savedNotice (path : String) (n : Nat) : Notice :=
  .debug fun _ => s!"Saved {n} bytes to {path}"

/-- The content of a file, cut to the size of a chip. -/
def load (path : String) (size : Nat) : Act ω Failure Bytes := fun w =>
  match files.read path w with
  | (.error e, w) => (.error (.io path e.message), w)
  | (.ok content, w) =>
    let w := if size < content.size then files.note (longNotice path content.size size) w else w
    let data := if size < content.size then content.take size else content
    (.ok data, files.note (loadedNotice path data.size) w)

def save (path : String) (data : Bytes) : Act ω Failure Unit := fun w =>
  match files.write path data w with
  | (.error e, w) => (.error (.io path e.message), w)
  | (.ok (), w) => (.ok (), files.note (savedNotice path data.size) w)

end NorFlash.Image
