import NorFlash.Emulator.Basic
import NorFlash.Files.Store

namespace NorFlash.Emulator

variable {ω : Type} (files : FileStore ω)

def unreadableNotice (path : String) (e : OsError) : Notice :=
  .error fun _ => s!"Couldn't read dummy image {path}: {e.message}"

def missingNotice (path : String) : Notice :=
  .info fun _ => s!"{path} does not exist, starting erased"

def longNotice (path : String) (length size : Nat) : Notice :=
  .warn fun _ => s!"Dummy image {path} is {length} bytes, only the first {size} are used"

def loadedNotice (path : String) (n : Nat) : Notice :=
  .debug fun _ => s!"Loaded {n} bytes from {path}"

/-- What loading an image tells. -/
def loadNotices (path : String) (length size : Nat) : List Notice :=
  (if size < length then [longNotice path length size] else []) ++
    [loadedNotice path (min length size)]

/-- Lays the content of an image file over the cells. Without a file they stay as they are. -/
def loadImage (path : String) (e : Emulator) : Act ω Error Emulator := fun w =>
  match files.read path w with
  | (.ok content, w) =>
    let notices := loadNotices path content.size e.cells.size
    (.ok (e.load content), notices.foldl (fun w n => files.note n w) w)
  | (.error e', w) =>
    if e' == .notFound then (.ok e, files.note (missingNotice path) w)
    else (.error .programmer, files.note (unreadableNotice path e') w)

def savedNotice (path : String) (n : Nat) : Notice :=
  .debug fun _ => s!"Saved {n} bytes to {path}"

def unwritableNotice (path : String) (e : OsError) : Notice :=
  .error fun _ => s!"Couldn't save dummy image {path}: {e.message}"

/-- Writes all cells to an image file. -/
def saveImage (path : String) (cells : Bytes) : Act ω Error Unit := fun w =>
  match files.write path cells w with
  | (.ok (), w) => (.ok (), files.note (savedNotice path cells.size) w)
  | (.error e, w) => (.error .programmer, files.note (unwritableNotice path e) w)

end NorFlash.Emulator
