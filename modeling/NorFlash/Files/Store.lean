import NorFlash.Act
import NorFlash.Bytes
import NorFlash.Files.OsError
import NorFlash.Log.Notice

namespace NorFlash

structure FileStore (ω : Type) where
  read : String → Act ω OsError Bytes
  /-- Replaces or makes a file. -/
  write : String → Bytes → Act ω OsError Unit
  note : Notice → ω → ω

end NorFlash
