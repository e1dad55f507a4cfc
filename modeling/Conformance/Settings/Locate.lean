import Conformance.Disk.Basic
import Conformance.Settings.Reading

/-!
# Where settings come from

A workspace may name its settings file in the environment. Otherwise the file has one of two
names at the top of the workspace, and without one everything is left at its default.
Relative paths in a settings file start from the folder that holds it.
-/

namespace Conformance

namespace Settings

/-- The environment variable that names a settings file. -/
def variableName : String := "INTERFACER_CONFIG_PATH"

/-- The names that a settings file may have, in the order in which they are tried. -/
def fileNames : List String := ["interfacer.toml", ".interfacer.toml"]

end Settings

namespace Disk

/-- The shortest path to where a path leads, or the path itself if it leads nowhere. -/
def simplify (disk : Disk) (path : String) : String := (disk.canonical? path).getD path

/-- The paths where the settings file of a workspace may be. -/
def settingsPaths (named : Option String) (workspace : String) : List String :=
  match named with
  | some value => [Path.join workspace value]
  | none => Settings.fileNames.map (Path.join workspace)

/-- The settings file of a workspace, which need not exist if the environment names it. -/
def settingsFile? (disk : Disk) (named : Option String) (workspace : String) : Option String :=
  let paths := settingsPaths named workspace
  let found :=
    if named.isSome then paths.head? else paths.find? fun path => (disk.contents? path).isSome
  found.map disk.simplify

/-- The settings that a file states. -/
def settingsAt (disk : Disk) (path : String) : Settings.Read Settings :=
  match (disk.contents? path).bind Contents.text? with
  | none => .error (.unreadable path)
  | some text =>
    (Settings.parse text).map fun settings =>
      match Path.parent? path with
      | some base => settings.resolvePaths base
      | none => settings

/-- The settings of a workspace, and the file that states them if there is one. -/
def settings (disk : Disk) (named : Option String) (workspace : String) :
    Settings.Read (Settings × Option String) :=
  match disk.settingsFile? named workspace with
  | none => .ok ({}, none)
  | some path => (disk.settingsAt path).map (·, some path)

end Disk

end Conformance
