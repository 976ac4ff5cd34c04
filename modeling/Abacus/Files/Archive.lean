/-!
# Abacus — Files — Archive

Archives as the lists of their members. Members are regular files with names that hold no null
character, and their contents are what they unpack to: directories, links, passwords, checksums and
compression are left out, and so a file is an archive or is none.
-/

namespace Abacus

-- bytes are compared as `ByteArray` does it, also beside a library that has its own way
attribute [instance (high)] ByteArray.instDecidableEq

inductive ArchiveKind where
  | zip
  | tarXz
  | sevenZip
  deriving DecidableEq, Repr

/-- The kind as messages name it. -/
def ArchiveKind.name : ArchiveKind → String
  | .zip      => "zip"
  | .tarXz    => "tar.xz"
  | .sevenZip => "7z"

structure Member where
  name : String
  content : ByteArray
  deriving DecidableEq

structure Archive where
  kind : ArchiveKind
  members : List Member
  deriving DecidableEq

end Abacus
