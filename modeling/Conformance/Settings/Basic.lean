import Conformance.Disk.Path
import Conformance.Text.Blank

/-!
# Settings

What a settings file may say about a project. Everything may be left out.
-/

namespace Conformance

/-- What is logged, and where to. -/
structure Logging where
  /-- A level, or directives for several targets. -/
  level : String := "info"
  json : Bool := false
  stderr : Bool := true
  file : Option String := none
  deriving DecidableEq, Repr, Inhabited

structure Settings where
  /-- Packages whose interfaces on the classpath count; an item may list several. -/
  packages : List String := []
  /-- The folder with the sources of interfaces. -/
  interfacesDir : Option String := none
  /-- The folder with the classes to change. -/
  scanDir : Option String := none
  /-- Folders and archives with class files, in the order in which they are searched. -/
  classpath : List String := []
  /-- How many passes may be needed. -/
  maxPasses : Option Nat := none
  logging : Logging := {}
  deriving DecidableEq, Repr, Inhabited

namespace Settings

/-- The packages in some lists of packages, each separated by commas. -/
def splitPackages (lists : List String) : List String :=
  ((lists.flatMap (Text.split ',')).map Text.trim).filter (!·.isEmpty)

/-- The packages whose interfaces count. -/
def packageFilter (settings : Settings) : List String := splitPackages settings.packages

/-- The settings with every relative path taken as one below a base. -/
def resolvePaths (base : String) (settings : Settings) : Settings :=
  { settings with
    interfacesDir := settings.interfacesDir.map (Path.join base)
    scanDir := settings.scanDir.map (Path.join base)
    classpath := settings.classpath.map (Path.join base)
    logging := { settings.logging with file := settings.logging.file.map (Path.join base) } }

end Settings

end Conformance
