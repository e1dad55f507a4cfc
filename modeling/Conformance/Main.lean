import Conformance.Command.Response

/-!
# The program

The files that a command line may need are read into a `Disk`, the response is computed from
it, and the files that the response has changed are written back.
-/

namespace Conformance

/-- Whether what a file holds matters; other files are listed only. -/
def isNeeded (path : String) : Bool :=
  ["java", "class", "jar", "zip", "toml"].any fun extension => Path.extension? path = some extension

/-- The tree that an entry of a folder leads to. -/
partial def readTree (entry : IO.FS.DirEntry) : IO Node := do
  if ← entry.path.isDir then
    let mut node := Node.folder []
    for child in ← entry.path.readDir do
      node := .put (← readTree child) [child.fileName] node
    return node
  else if isNeeded entry.fileName then
    return .file (.bytes (← IO.FS.readBinFile entry.path).toList)
  else
    return .file (.bytes [])

/-- A disk with what a path leads to, and with the folders on the way there. -/
def readPath (disk : Disk) (path : String) : IO Disk := do
  let mut disk := disk
  let mut place : List String := []
  let absolute := Path.join ("/" ++ "/".intercalate disk.here) path
  for part in (Text.split '/' absolute).filter (!Path.isFiller ·) do
    place := if part = ".." then place.dropLast else place ++ [part]
    let entry : IO.FS.DirEntry := { root := "/", fileName := "/".intercalate place }
    if (disk.root.find? place).isNone && (← entry.path.isDir) then
      disk := { disk with root := .put (.folder []) place disk.root }
  let entry : IO.FS.DirEntry := { root := "/", fileName := "/".intercalate place }
  if ← entry.path.pathExists then
    return { disk with root := .put (← readTree entry) place disk.root }
  else
    return disk

/-- A disk with everything that a request may read. -/
def readRequest (named : Option String) (disk : Disk) : Request → IO Disk
  | .perform arguments => do
    let disk ← (arguments.settingsPaths named).foldlM readPath disk
    match arguments.settings named disk with
    | .ok settings => (arguments.options settings).paths.foldlM readPath disk
    | .error _ => return disk
  | _ => return disk

/-- Answers a command line, with the exit code as result. -/
def perform (words : List String) : IO UInt32 := do
  let named ← IO.getEnv Settings.variableName
  let here := (Text.split '/' (← IO.currentDir).toString).filter (!Path.isFiller ·)
  let empty : Disk := { root := .put (.folder []) here (.folder []), here := here }
  let disk ←
    match Request.ofWords words with
    | .ok request => readRequest named empty request
    | .error _ => pure empty
  let response := respond words named disk
  for (path, contents) in response.disk.changesFrom disk do
    IO.FS.writeBinFile path contents.toBytes.toByteArray
  if response.logging.stderr then IO.eprint response.log
  for path in response.logging.file do
    try
      let file ← IO.FS.Handle.mk path .append
      file.putStr response.log
    catch _ => pure ()
  IO.print response.output
  for complaint in response.complaint do
    IO.eprintln complaint
  return UInt32.ofNat response.exitCode

end Conformance

def main (words : List String) : IO UInt32 := Conformance.perform words
