import DecayForest.Params
/-!
# Particle databases

A database finds species with their attributes, and decay modes with their branching fractions; a
search may end without a result, and a search is all that is ever made in it. In a list of modes one
is found by its initial species, its products in any order, and its angular momentum; of several the
first one counts. The empty database knows nothing.
-/

namespace DecayForest

/-- A kind of particle. -/
structure Species where
  name : String
  attributes : ParamList

/-- A field of a species. Its name is one, whatever the attributes hold. -/
def Species.field? (s : Species) (field : String) : Option Value :=
  if field = "name" then some (.text s.name) else s.attributes.value? field

/-- A known decay. -/
structure Mode where
  initial : String
  products : List String
  branchingFraction : Option Float := none
  angularMomentum : Option Float := none
  attributes : ParamList := ∅

/-- Whether a mode is the decay of a species into the given ones, whose names are sorted. -/
def Mode.fits (m : Mode) (initial : String) (sorted : List String) (momentum : Option Float) : Bool :=
  m.initial == initial && m.angularMomentum == momentum && m.products.mergeSort == sorted

/-- What finds a species by its name. -/
structure SpeciesIndex where
  find? : String → Option Species := fun _ => none

namespace SpeciesIndex

/-- The index of a list of names with the attributes of their species. -/
def ofList (entries : List (String × ParamList)) : SpeciesIndex where
  find? name := (entries.lookup name).map (⟨name, ·⟩)

instance : Coe (List (String × ParamList)) SpeciesIndex := ⟨ofList⟩

end SpeciesIndex

/-- What finds a decay mode by its initial species, its products, and its angular momentum. -/
structure ModeIndex where
  find? : Species → List Species → Option Float → Option Mode := fun _ _ _ => none

namespace ModeIndex

/-- The index of a list of modes: the first that fits. -/
def ofList (modes : List Mode) : ModeIndex where
  find? initial products momentum :=
    let sorted := (products.map Species.name).mergeSort
    modes.find? (·.fits initial.name sorted momentum)

instance : Coe (List Mode) ModeIndex := ⟨ofList⟩

end ModeIndex

/-- Species and decay modes, each as what finds them. -/
structure Database where
  species : SpeciesIndex := {}
  modes : ModeIndex := {}

end DecayForest
