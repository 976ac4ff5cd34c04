import Abacus.Files.Tree
/-!
# Abacus — Files — Unpack

A temporary directory, and members of archives unpacked in it. Each kind of archive has its own
rules for the names of members: a zip archive leaves out what would lead up or to the root, a tar
archive leaves out the slashes at the front and refuses what leads out of the directory, and for
7z archives this is up to a library.
-/

namespace Abacus

/-- Why a member is not unpacked. -/
inductive UnpackFailure where
  | refused
  | file (f : FileFailure)
  deriving DecidableEq, Repr

/-- The library for 7z archives: the names that it lists for their members, and the files that it
writes below a directory, each with the parts of its path, to unpack a name there. -/
class SevenZip where
  names : List Member → List String
  files : List Member → String → Except UnpackFailure (List (List String × ByteArray))

/-- The parts of a path with upward steps carried out; nothing if they lead out of the top. -/
def Path.resolved? (p : Path) : Option (List String) :=
  p.parts.foldlM (fun place part =>
    if part == ".." then (if place.isEmpty then none else some place.dropLast)
    else some (place ++ [part])) []

/-- The library that the program has: of several members of a name it unpacks the first, and none
whose name leads out of the directory. -/
instance : SevenZip where
  names members := members.map Member.name
  files members name :=
    let p := Path.ofString name
    match members.find? fun m => m.name == name, p.resolved? with
    | some m, some parts => if p.slashes = 0 then .ok [(parts, m.content)] else .error .refused
    | _, _               => .error .refused

/-- The path that begins in a directory. An absolute one does not. -/
def Path.within (dir : Place) (p : Path) : Path :=
  if p.slashes = 0 then ⟨1, dir ++ p.parts⟩ else p

namespace FileTree

/-! ### Temporary directories -/

/-- Where temporary directories are made. -/
def temporaryRoot : Place := ["tmp"]

/-- The names of temporary directories, each with eight digits. -/
def temporaryName (n : Nat) : String :=
  "tmp" ++ String.ofList ([7, 6, 5, 4, 3, 2, 1, 0].map fun i => Nat.digitChar (n / 10 ^ i % 10))

/-- How many names are tried for a temporary directory. -/
def temporaryTries : Nat := 10000

/-- Whether nothing is at a place, nor below it. -/
def isVacant (t : FileTree) (place : Place) : Bool :=
  t.entries.all fun e => !place.isPrefixOf e.1

/-- The first vacant place for a temporary directory, when so many are tried from a number on. -/
def temporaryFrom (t : FileTree) (n : Nat) : Nat → Option Place
  | 0         => none
  | tries + 1 =>
      let place := temporaryRoot ++ [temporaryName n]
      if t.isVacant place then some place else t.temporaryFrom (n + 1) tries

/-- Makes a temporary directory. -/
def makeTemporary (t : FileTree) : Except FileFailure (FileTree × Place) :=
  match t.node? temporaryRoot with
  | some .directory =>
      match t.temporaryFrom 0 temporaryTries with
      | some place => .ok (t.put place .directory, place)
      | none       => .error .alreadyThere
  | _ => .error .notFound

/-! ### Unpacking -/

/-- Makes a directory in one that is there. -/
def makeDirectory (t : FileTree) (p : Path) : Except FileFailure FileTree := do
  let place ← t.locate p
  match t.node? place with
  | none   => return t.put place .directory
  | some _ => throw .alreadyThere

/-- Makes what is missing of a directory below a place, its last part first: unless it is there, it
is made when those above it have been. Two dots are there as soon as what they lead up from is, but
that is passed over only on the way. What has been made stays. -/
def makeMissing (t : FileTree) (dir : Place) : List String → FileTree × Except FileFailure Unit
  | []            => (t, .ok ())
  | part :: above =>
      let p : Path := ⟨1, dir ++ (part :: above).reverse⟩
      if (t.lookup p).isOk then (t, .ok ())
      else
        let (made, way) := t.makeMissing dir above
        match way with
        | .ok () | .error .alreadyThere =>
            match made.makeDirectory p with
            | .ok made => (made, .ok ())
            | .error f => (made, .error f)
        | .error f => (made, .error f)

/-- Writes a file below a directory, and makes what is missing on the way. -/
def unpackAt (t : FileTree) (dir : Place) (parts : List String) (content : ByteArray) :
    Except FileFailure FileTree :=
  let (made, way) := t.makeMissing dir parts.dropLast.reverse
  do
    way
    made.write ⟨1, dir ++ parts⟩ (.file content)

end FileTree

namespace Archive
variable [SevenZip]

/-- The names of the members as they are listed. -/
def names (a : Archive) : List String :=
  match a.kind with
  | .sevenZip => SevenZip.names a.members
  | _         => a.members.map Member.name

/-- The files that are written to unpack a name below a directory, each with the parts of its path.
Of several members of the name a zip and a tar archive give the last. -/
def files (a : Archive) (dir : Place) (name : String) :
    Except UnpackFailure (List (List String × ByteArray)) :=
  let parts := (Path.ofString name).parts
  match a.kind, a.members.reverse.find? fun m => m.name == name with
  | .zip, some m   => .ok [(parts.filter (· != ".."), m.content)]
  | .tarXz, some m =>
      if dir.isPrefixOf (FileTree.placeOf [] ⟨1, dir ++ parts⟩) then .ok [(parts, m.content)]
      else .error .refused
  | .sevenZip, _   => SevenZip.files a.members name
  | _, none        => .error .refused

/-- Unpacks a name below a directory. -/
def unpack (a : Archive) (t : FileTree) (dir : Place) (name : String) :
    Except UnpackFailure FileTree := do
  (← a.files dir name).foldlM (fun t (parts, content) =>
    (t.unpackAt dir parts content).mapError .file) t

end Archive

end Abacus
