import Std.Time
import CrossDoc.Bytes
import CrossDoc.Command.Run

/-!
# The program

Reads the files a run looks at, runs the command on them, and writes what it
changed.
-/

open CrossDoc

/-- The string of a path. -/
def pathString (path : Text) : String := (Text.toString? path).getD ""

/-- Adds the file or directory at a path, with all below it. -/
partial def loadPath (disk : Disk) (path : Text) : IO Disk := do
  let name := pathString path
  try
    let entries ← ((← IO.currentDir) / name).readDir
    let mut disk := disk.install path none
    for entry in entries do
      disk ← loadPath disk (Path.append path (Text.ofString entry.fileName))
    return disk
  catch _ =>
    try
      return disk.install path (some (Text.ofBytes (← IO.FS.readBinFile name)))
    catch _ => return disk

/-- Writes the files that differ from those of another disk. -/
def saveChanges (old new : Disk) : IO Unit := do
  for (path, content) in new.allFiles do
    if old.read? path != some content then
      let up := Path.parent path
      if !up.isEmpty then IO.FS.createDirAll (pathString up)
      IO.FS.writeBinFile (pathString path) (Text.toBytes content)

/-- The time of the run. -/
def readClock : IO Log.Clock := do
  let now ← Std.Time.DateTime.now
  return ⟨now.format "HH:mm:ss.SSS", now.toTimestamp.toMillisecondsSinceUnixEpoch.val⟩

def main (args : List String) : IO UInt32 := do
  let args := args.map Text.ofString
  let env := Text.ofString ((← IO.getEnv "POLYDOC_LOG").getD "")
  let mut disk : Disk := {}
  let options := CommandOptions.ofArgs args
  if !options.configFile.isEmpty then disk ← loadPath disk options.configFile
  for path in Command.inputPaths options (Log.Options.ofArgs args env) disk do
    disk ← loadPath disk path
  let outcome := Command.process (← readClock) args env disk
  saveChanges disk outcome.disk
  (← IO.getStderr).write (Text.toBytes outcome.stderr)
  return outcome.exitCode.toUInt32
