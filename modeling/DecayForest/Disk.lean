import DecayForest.Host
import DecayForest.Path
/-!
# Hosts in memory

A disk is a tree of directories and files, with a working directory and variables. Entries are
named by the segments of their paths from the root on.
-/

namespace DecayForest

/-- What a path leads to. -/
inductive Entry where
  | directory
  | file (content : ByteArray)

/-- Directories and files in memory. -/
structure Disk where
  /-- The entries by their paths. The root is a directory without an entry. -/
  entries : List (List String × Entry) := []
  /-- The directory at which relative paths start. -/
  working : List String := []
  environment : Environment := {}

namespace Disk

/-- The entry of a path. -/
def entry? (d : Disk) (place : List String) : Option Entry :=
  if place.isEmpty then some .directory else d.entries.lookup place

/-- Sets the entry of a path. -/
def put (d : Disk) (place : List String) (e : Entry) : Disk :=
  { d with entries := (place, e) :: d.entries.filter (·.1 != place) }

/-- Adds a directory and those above it, where there is nothing yet. -/
def makeDirectories (d : Disk) (place : List String) : Disk :=
  (List.range place.length).foldl (fun d n =>
    if (d.entry? (place.take (n + 1))).isNone then d.put (place.take (n + 1)) .directory else d) d

/-- Adds a file and the directories above it. -/
def addFile (d : Disk) (place : List String) (content : ByteArray) : Disk :=
  (d.makeDirectories place.dropLast).put place (.file content)

/-- The longest name of an entry, in bytes. -/
def maxName : Nat := 255

/-- The longest path, in bytes. -/
def maxPath : Nat := 4095

/-- Goes one segment further. Only a directory can be gone through. -/
def enter (d : Disk) (place : List String) (segment : String) :
    Except ReadFault (List String) :=
  match d.entry? place with
  | none => .error .missing
  | some (.file _) => .error .unreadable
  | some .directory =>
    if segment = "" || segment = "." then .ok place
    else if segment = ".." then .ok place.dropLast
    else if maxName < segment.utf8ByteSize then .error .unreadable
    else .ok (place ++ [segment])

/-- The place that a path leads to. All but the last segment have to be there. -/
def locate (d : Disk) (path : String) : Except ReadFault (List String) :=
  if path.isEmpty then .error .missing
  else if path.toList.contains '\x00' || maxPath < path.utf8ByteSize then .error .unreadable
  else
    let start := if Path.isAbsolute path then [] else d.working
    ((Path.segments path.toList).map String.ofList).foldlM d.enter start

/-- The text of a file. -/
def read (d : Disk) (path : String) : Except ReadFault String := do
  match d.entry? (← d.locate path) with
  | none => throw .missing
  | some .directory => throw .unreadable
  | some (.file content) =>
    match String.fromUTF8? content with
    | some text => return text
    | none => throw .unreadable

/-- Makes the directory of a path and those above it, as many as are not there. The bound is on the
number of segments. -/
def makePath : Nat → String → Disk → Option Disk
  | 0, _, _ => none
  | bound + 1, path, d => do
    if path.isEmpty then return d
    let d ← match d.locate path with
      | .error .missing => makePath bound (← Path.parent? path) d
      | .error .unreadable => none
      | .ok _ => pure d
    let place ← (d.locate path).toOption
    match d.entry? place with
    | some .directory => return d
    | some (.file _) => none
    | none => return d.put place .directory

/-- Writes a file. -/
def write? (d : Disk) (path text : String) : Option Disk := do
  let d ← match Path.parent? path with
    | some directory => makePath (path.length + 1) directory d
    | none => pure d
  let place ← (d.locate path).toOption
  match d.entry? place with
  | some .directory => none
  | _ => return d.put place (.file text.toUTF8)

instance : Host (StateM Disk) where
  read path := return (← get).read path
  write path text := modifyGet fun d =>
    match d.write? path text with
    | some d => (true, d)
    | none => (false, d)
  isPresent path := do
    let d ← get
    return ((d.locate path).toOption.bind d.entry?).isSome
  environment := return (← get).environment

end Disk

end DecayForest
