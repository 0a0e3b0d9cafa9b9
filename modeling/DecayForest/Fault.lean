import DecayForest.Group.Building
/-!
# Faults of a run

Everything that can stop a command, from an unreadable file to a document that makes no group, with
its words and its exit code.
-/

namespace DecayForest

/-- Why a file gives no text. -/
inductive ReadFault where
  | missing
  | unreadable
deriving DecidableEq, Repr

/-- Why a command stops. -/
inductive Fault where
  | document (e : DocumentError)
  | noDocument (path : String)
  | documentUnreadable (path : String)
  | documentUnwritable (path : String)
  | databaseUnreadable (path : String)
  | databaseInvalid (path : String)
  /-- The largest number of alternatives is set to a negative number. -/
  | negativeLimit (n : Int)
  /-- The settings from some place cannot be taken. -/
  | settingsInvalid (place : String)
  /-- A variable sets an entry of a list at a position that the list cannot have. -/
  | positionOutside (variableName : String)
  /-- A name has no spelling in a document; it is given in quotes. -/
  | nameUnwritable (quoted : String)

namespace Fault

/-- The words for a fault. -/
def message : Fault → String
  | document e => e.message
  | noDocument path => "document not found: " ++ path
  | documentUnreadable path => "operation failed: read document: " ++ path
  | documentUnwritable path => "operation failed: write document: " ++ path
  | databaseUnreadable path => "I/O error: read particle database " ++ path
  | databaseInvalid path => "invalid particle database " ++ path
  | negativeLimit n =>
    "config error: max_alternatives must not be negative, got " ++ toString n
  | settingsInvalid place => "config error: " ++ place
  | positionOutside variableName => "no list has the position in " ++ variableName
  | nameUnwritable quoted =>
    "invalid arguments: " ++ quoted ++
      " contains a double quote or line break and cannot be written as an identifier"

/-- The exit code that tells the kind of a fault. -/
def exitCode : Fault → UInt8
  | document e => if e.isInvalid then 65 else 70
  | noDocument _ => 66
  | documentUnreadable _ | documentUnwritable _ | databaseUnreadable _ => 74
  | databaseInvalid _ | negativeLimit _ | settingsInvalid _ => 78
  | nameUnwritable _ => 64
  | positionOutside _ => 101

end Fault

/-- The group of a document file, from what reading the file gave. -/
def Group.ofFile (database : Database) (path : String) (content : Except ReadFault String) :
    Except Fault Group :=
  match content with
  | .ok text => (Group.read database text).mapError .document
  | .error .missing => .error (.noDocument path)
  | .error .unreadable => .error (.documentUnreadable path)

end DecayForest
