import DecayForest.Arena
import DecayForest.Params
/-!
# Faults of the model

What an operation on a forest or a group refuses, by cause. `ModelError.message` gives the words.
-/

namespace DecayForest

/-- The handle of a particle. -/
structure ParticleId where
  key : Key
deriving DecidableEq, Repr

/-- The handle of a decay. -/
structure DecayId where
  key : Key
deriving DecidableEq, Repr

/-- A key as it stands in messages. -/
def Key.shown (k : Key) : String :=
  "Index \x7b index: " ++ toString k.slot ++ ", generation: " ++ toString k.generation ++ " \x7d"

/-- A handle as it stands in messages. -/
def ParticleId.shown (id : ParticleId) : String :=
  "ParticleId(" ++ id.key.shown ++ ")"

/-- A handle as it stands in messages. -/
def DecayId.shown (id : DecayId) : String :=
  "DecayId(" ++ id.key.shown ++ ")"

/-- How many decays may follow one another below a particle that is expanded or written. -/
def maxDepth : Nat := 64

/-- Why an operation is refused. Particles are named by their types. -/
inductive ModelError where
  /-- A product has a parent already. -/
  | productOwned (product : String)
  /-- A decay belongs to a particle already. -/
  | decayOwned (owner : String)
  /-- A product is listed twice. -/
  | productRepeated (product : String)
  /-- A particle would descend from itself. -/
  | cycle (particle : String)
  /-- A root is the product of a decay. -/
  | rootOwned (particle : String)
  /-- A particle to discard is the product of a decay. -/
  | stillAttached (particle : String)
  /-- No particle has this handle now. -/
  | deadParticle (id : ParticleId)
  /-- No decay has this handle now. -/
  | deadDecay (id : DecayId)
  /-- A particle to add as a root is not in the forest. -/
  | deadRoot (id : ParticleId)
  /-- A decay is not among the decays of a particle. -/
  | decayNotListed (particle : String)
  /-- The database does not know a species. -/
  | unknownSpecies (name : String)
  /-- The database does not know a decay mode. -/
  | unknownMode (initial : String) (products : List String)
  /-- A decay without a parent has no mode. -/
  | decayWithoutParent
  /-- No source gives an attribute of a particle or a decay. -/
  | noAttribute (element name : String)
  /-- A decay has no text without its parent. -/
  | loneDecay
  /-- The type of a particle is no text. -/
  | typeNotText (shown : String)
  /-- The branching fraction of a decay is no number. -/
  | fractionNotNumber (shown : String)
  /-- The mass of a particle is no number. -/
  | massNotNumber (shown particle : String)
  /-- A name or text has no spelling in a document. -/
  | unwritable (text : String)
  /-- An expansion would be too large. -/
  | tooManyAlternatives (particle : String) (count limit : Nat)
  /-- Too many decays follow one another. -/
  | tooDeep (particle : String) (depth : Nat)
deriving DecidableEq

namespace ModelError

/-- The fault is a breach of the rules that link particles and decays. -/
def isConsistency : ModelError → Bool
  | productOwned _ | decayOwned _ | productRepeated _ | cycle _ | rootOwned _ | stillAttached _ =>
    true
  | _ => false

/-- The fault is a search without a result. -/
def isNotFound : ModelError → Bool
  | decayNotListed _ | unknownSpecies _ | unknownMode _ _ | decayWithoutParent => true
  | _ => false

/-- The fault is a handle that names nothing. -/
def isDeadHandle : ModelError → Bool
  | deadParticle _ | deadDecay _ => true
  | _ => false

private def invalidParam (name reason : String) : String :=
  "invalid parameter '" ++ name ++ "': " ++ reason

/-- The words for a fault. -/
def message : ModelError → String
  | productOwned product => "particle " ++ product ++ " is already the product of another decay"
  | decayOwned owner =>
    "decay already belongs to particle " ++ owner ++
      "; remove it there before adding it elsewhere"
  | productRepeated product =>
    "particle " ++ product ++ " is listed more than once in the same decay"
  | cycle particle => "particle " ++ particle ++ " would become its own descendant"
  | rootOwned particle => "particle " ++ particle ++ " is a decay product and cannot be a root"
  | stillAttached particle => "particle " ++ particle ++ " is still attached to a parent decay"
  | deadParticle id => "unknown particle handle: " ++ id.shown
  | deadDecay id => "unknown decay handle: " ++ id.shown
  | deadRoot id => "invalid type: " ++ id.shown ++ " is not a particle of this process group"
  | decayNotListed particle => "decay is not in the decay list of particle " ++ particle
  | unknownSpecies name =>
    "not found in particle database: unknown particle name '" ++ name ++ "'"
  | unknownMode initial products =>
    "not found in particle database: no decay mode for " ++ initial ++ " -> " ++
      " ".intercalate products
  | decayWithoutParent => "not found in particle database: decay has no parent particle"
  | noAttribute element name => element ++ " has no attribute '" ++ name ++ "'"
  | loneDecay => "invalid type: a decay cannot be emitted without its parent particle"
  | typeNotText shown =>
    invalidParam ParamList.typeName ("expected a particle name, got '" ++ shown ++ "'")
  | fractionNotNumber shown =>
    invalidParam ParamList.fractionName ("'" ++ shown ++ "' is not a number")
  | massNotNumber shown particle =>
    invalidParam ParamList.massName ("'" ++ shown ++ "' on " ++ particle ++ " is not a number")
  | unwritable text =>
    invalidParam text "contains a double quote or line break and cannot be written"
  | tooManyAlternatives particle count limit =>
    "expansion of " ++ particle ++ " yields " ++ toString count ++
      " alternative trees, limit is " ++ toString limit
  | tooDeep particle depth =>
    "decay chain below " ++ particle ++ " is " ++ toString depth ++ " levels deep, limit is " ++
      toString maxDepth

end ModelError

end DecayForest
