import DecayForest.Environment
import DecayForest.Fault
/-!
# Hosts

A host is what commands run on: files, and variables with values. Commands are written for any host,
so that the same ones run on the machine and on a `Disk`, which is a host in memory.
-/

namespace DecayForest

/-- Files and variables. -/
class Host (m : Type → Type) where
  /-- The text of a file. -/
  read : String → m (Except ReadFault String)
  /-- Writes a file and makes the directories above it, and tells whether that went well. -/
  write : String → String → m Bool
  /-- Whether a path leads to anything. -/
  isPresent : String → m Bool
  /-- All variables with their values. -/
  environment : m Environment

end DecayForest
