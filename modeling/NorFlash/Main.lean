import NorFlash.CommandLine.Run

namespace NorFlash.CommandLine

/-- Paths from the first directory on the way down to the path itself. -/
def waypoints (path : String) : List String :=
  let parts := path.splitOn "/"
  ((List.range parts.length).map fun i => "/".intercalate (parts.take (i + 1))).filter
    fun p => !p.isEmpty

/-- Takes what stands at a path into memory. -/
def look (files : Files) (path : String) : IO Files := do
  match ← (IO.FS.readBinFile path).toBaseIO with
  | .ok content => return files.learn path (.file content)
  | .error _ =>
    match ← (do (← IO.FS.realPath path).readDir).toBaseIO with
    | .ok _ => return if (files.find path).isOk then files else files.learn path .empty
    | .error _ => return files

def lookAlong (files : Files) (path : String) : IO Files := (waypoints path).foldlM look files

/-- Takes a directory with everything right below it into memory. -/
def lookInto (files : Files) (dir : String) : IO Files := do
  let files ← lookAlong files dir
  match ← (do (← IO.FS.realPath dir).readDir).toBaseIO with
  | .ok entries => entries.foldlM (fun files e => look files (dir ++ "/" ++ e.fileName)) files
  | .error _ => return files

/-- The files that the options name. -/
def gather (o : Options) : IO Files := do
  let files ← o.paths.foldlM lookAlong {}
  match o.vendorFiles with
  | some dir => lookInto files dir
  | none => return files

/-- Writes a file that a run has changed. -/
def giveBack (before after : Files) (path : String) : IO Unit :=
  match before.read path, after.read path with
  | .ok old, .ok new => if old == new then pure () else IO.FS.writeBinFile path new
  | _, .ok new => IO.FS.writeBinFile path new
  | _, _ => pure ()

end NorFlash.CommandLine

open NorFlash NorFlash.CommandLine in
def main (args : List String) : IO UInt32 := do
  let o := (Options.ofArgs? args).getD {}
  let before ← gather o
  let (outcome, m) := run args (Machine.bare before { threshold := some o.level })
  IO.print outcome.output
  m.log.lines.forM IO.eprintln
  match ← (o.paths.forM (giveBack before m.files)).toBaseIO with
  | .ok () => return outcome.exit.toUInt32
  | .error e =>
    IO.eprintln e
    return ioExit.toUInt32
