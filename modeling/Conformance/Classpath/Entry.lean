import Conformance.Disk.Path

/-!
# Entries of a classpath

Classes are looked for in archives and below folders. Which of the two a path means is
decided by its extension alone, whether or not anything is there.
-/

namespace Conformance

inductive ClasspathEntry where
  | archive (path : String)
  | folder (path : String)
  deriving DecidableEq, Repr, Inhabited

namespace ClasspathEntry

/-- The extensions of archives. -/
def archiveExtensions : List String := ["jar", "zip"]

/-- The entry that a path means. -/
def ofPath (path : String) : ClasspathEntry :=
  match Path.extension? path with
  | some extension =>
    if archiveExtensions.contains extension.toLower then archive path else folder path
  | none => folder path

def path : ClasspathEntry → String
  | archive path | folder path => path

end ClasspathEntry

end Conformance
