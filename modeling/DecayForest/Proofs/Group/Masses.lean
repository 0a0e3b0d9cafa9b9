import DecayForest.Proofs.Group.Correspondence
import DecayForest.Proofs.Group.Faults
/-!
# Impossible decays

The check of kinematics goes through the trees of all roots. In a group that is read these trees have every
decay once (`Group.Covered`), so the check needs the masses of all decays with products, and of those decays
it finds the ones that are too heavy, each in its place (`Group.read_impossibleDecays`). What mass a
particle has is told in three tiers (`Forest.told?`).
-/

namespace DecayForest

namespace Forest

variable {f : Forest} {x p : ParticleId} {d : DecayId} {D : Decay} {name : String} {v : Value} {m : Float}

/-! ### Masses -/

/-- What a particle itself tells under a name. -/
def intrinsic? (X : Particle) (name : String) : Option Value :=
  if name = "type" then some (.text X.type)
  else if name = "unique_name" then some (.text X.uniqueName)
  else none

/-- What is told of a particle under a name: its own parameter, or else a field of its species, or else
what it tells itself. -/
def told? (f : Forest) (x : ParticleId) (name : String) : Option Value :=
  (f.particle? x).bind fun X =>
    X.params.value? name <|>
      (f.database.species.find? X.type).bind (·.field? name) <|> intrinsic? X name

/-- The mass of a particle, if what is told is a number. -/
def mass? (f : Forest) (x : ParticleId) : Option Float :=
  (f.told? x ParamList.massName).bind Value.number?

theorem found?_speciesNamed (f : Forest) (name : String) :
    found? (f.speciesNamed name) = .ok (f.database.species.find? name) := by
  rw [speciesNamed]
  split
  · next h => rw [h]; rfl
  · next h => rw [h]; rfl

theorem attributeOf_eq_ok : f.attributeOf x name = .ok v ↔ f.told? x name = some v := by
  rcases hx : f.particle? x with _ | X
  · rw [attributeOf, told?, particle_of_none hx, hx]
    exact iff_of_false nofun nofun
  rw [attributeOf, told?, particle_of_some hx, hx, Option.bind_some]
  dsimp only [bind, Except.bind]
  rcases X.params.value? name with _ | own
  · rw [found?_speciesNamed]
    dsimp only
    rcases (f.database.species.find? X.type).bind (·.field? name) with _ | w
    · unfold intrinsic?
      dsimp only
      split_ifs <;> simp [pure, Except.pure]
    · simp [pure, Except.pure]
  · simp [pure, Except.pure]

theorem mass_eq_ok : f.mass x = .ok m ↔ f.mass? x = some m := by
  rw [mass?, Option.bind_eq_some_iff]
  constructor
  · intro h
    obtain ⟨v, hv, h⟩ := exists_of_bind_eq_ok h
    refine ⟨v, attributeOf_eq_ok.mp hv, ?_⟩
    split at h
    · next hnumber =>
      cases h
      exact hnumber
    · cases h
  · rintro ⟨v, hv, hnumber⟩
    rw [mass, attributeOf_eq_ok.mpr hv]
    dsimp only [bind, Except.bind]
    rw [hnumber]
    rfl

/-! ### Decays -/

/-- A decay belongs to a particle. -/
def Undergoes (f : Forest) (p : ParticleId) (d : DecayId) : Prop :=
  ∃ D, f.decay? d = some D ∧ D.parent = some p

/-- A decay is too heavy for a particle: it has products, and their masses, added from left to right, come
to more than the mass of the particle. -/
def Exceeds (f : Forest) (x : ImpossibleDecay) : Prop :=
  ∃ D masses, f.decay? x.decay = some D ∧ D.products ≠ [] ∧ f.mass? x.parent = some x.parentMass ∧
    List.Forall₂ (fun q m => f.mass? q = some m) D.products masses ∧
    x.productMass = masses.foldl (· + ·) (-0.0) ∧ x.productMass > x.parentMass

variable {found : Option ImpossibleDecay} {y : ImpossibleDecay}

theorem impossible?_eq_none (hD : f.decay? d = some D) (hnone : D.products = []) (p : ParticleId) :
    f.impossible? p d = .ok none := by
  rw [impossible?, decay_of_some hD]
  dsimp only [bind, Except.bind]
  rw [if_pos (List.isEmpty_iff.mpr hnone)]
  rfl

theorem impossible?_eq_ok (hD : f.decay? d = some D) (hsome : D.products ≠ []) :
    f.impossible? p d = .ok found ↔ ∃ m masses, f.mass? p = some m ∧
      List.Forall₂ (fun q m => f.mass? q = some m) D.products masses ∧
      found = if masses.foldl (· + ·) (-0.0) > m then
        some ⟨p, d, m, masses.foldl (· + ·) (-0.0)⟩ else none := by
  rw [impossible?, decay_of_some hD]
  simp only [← mass_eq_ok]
  dsimp only [bind, Except.bind]
  rw [if_neg (fun h => hsome (List.isEmpty_iff.mp h))]
  constructor
  · intro h
    obtain ⟨m, hm, h⟩ := exists_of_bind_eq_ok h
    obtain ⟨masses, hmasses, h⟩ := exists_of_bind_eq_ok h
    cases h
    exact ⟨m, masses, hm, forall₂_of_mapM_eq_ok hmasses, rfl⟩
  · rintro ⟨m, masses, hm, hmasses, rfl⟩
    rw [hm]
    dsimp only
    rw [mapM_eq_ok_of_forall₂ hmasses]
    rfl

/-- What is found is the decay that is looked at, and it is too heavy. -/
theorem impossible?_eq_some :
    f.impossible? p d = .ok (some y) ↔ (y.parent, y.decay) = (p, d) ∧ f.Exceeds y := by
  rcases hD : f.decay? d with _ | D
  · rw [impossible?, decay_of_none hD]
    refine iff_of_false nofun ?_
    rintro ⟨hy, D, masses, hD', -⟩
    cases hy
    cases hD.symm.trans hD'
  by_cases hsome : D.products = []
  · rw [impossible?_eq_none hD hsome]
    refine iff_of_false nofun ?_
    rintro ⟨hy, D', masses, hD', hsome', -⟩
    cases hy
    cases hD.symm.trans hD'
    exact hsome' hsome
  · rw [impossible?_eq_ok hD hsome]
    constructor
    · rintro ⟨m, masses, hm, hmasses, hy⟩
      split at hy
      · next hgt =>
        cases hy
        exact ⟨rfl, D, masses, hD, hsome, hm, hmasses, rfl, hgt⟩
      · cases hy
    · rintro ⟨hy, D', masses, hD', -, hm, hmasses, hsum, hgt⟩
      cases hy
      cases hD.symm.trans hD'
      refine ⟨y.parentMass, masses, hm, hmasses, ?_⟩
      rw [← hsum, if_pos hgt]

/-- The check of a decay does not fail exactly if the masses are there that it takes. -/
theorem exists_impossible?_iff (hD : f.decay? d = some D) : (∃ found, f.impossible? p d = .ok found) ↔
    (D.products ≠ [] → (∃ m, f.mass? p = some m) ∧ ∀ q ∈ D.products, ∃ m, f.mass? q = some m) := by
  by_cases hsome : D.products = []
  · exact iff_of_true ⟨none, impossible?_eq_none hD hsome p⟩ fun h => (h hsome).elim
  · simp only [impossible?_eq_ok hD hsome, ne_eq, hsome, not_false_eq_true, true_imp_iff]
    constructor
    · rintro ⟨found, m, masses, hm, hmasses, -⟩
      refine ⟨⟨m, hm⟩, fun q hq => ?_⟩
      obtain ⟨m', -, hm'⟩ := exists_right_of_forall₂ hmasses hq
      exact ⟨m', hm'⟩
    · rintro ⟨⟨m, hm⟩, hall⟩
      obtain ⟨masses, hmasses⟩ := exists_forall₂ hall
      exact ⟨_, m, masses, hm, hmasses, rfl⟩

end Forest

open Building Forest

namespace Group

/-! ### Places -/

/-- The trees of the roots of a group have all its decays, each of them once. -/
structure Covered (g : Group) : Prop where
  linked : Linked g.forest
  live : ∀ r ∈ g.roots, ∃ R, g.forest.particle? r = some R
  rootsOnce : g.roots.Nodup
  oneTree : ∀ {p P}, g.forest.particle? p = some P → ∃! r, r ∈ g.roots ∧ p ∈ g.forest.preorder r
  owned : ∀ {d D}, g.forest.decay? d = some D → ∃ p, D.parent = some p

/-- Where a decay of a particle stands: the place of the root, that of the particle in the tree of the root,
and that of the decay among the decays of the particle. -/
def StandsAt (g : Group) (p : ParticleId) (d : DecayId) (place : Nat × Nat × Nat) : Prop :=
  ∃ r P, g.roots[place.1]? = some r ∧ (g.forest.preorder r)[place.2.1]? = some p ∧
    g.forest.particle? p = some P ∧ P.decays[place.2.2]? = some d

/-- One place comes before another: it has the earlier root, or the earlier particle below one root, or is
the earlier one of the decays of a particle. -/
def Sooner (s t : Nat × Nat × Nat) : Prop :=
  s.1 < t.1 ∨ s.1 = t.1 ∧ (s.2.1 < t.2.1 ∨ s.2.1 = t.2.1 ∧ s.2.2 < t.2.2)

variable {g : Group} {p r r' : ParticleId} {d : DecayId} {database : Database} {source : String}
  {found : List ImpossibleDecay} {x : ImpossibleDecay}

theorem not_sooner_self (place : Nat × Nat × Nat) : ¬ Sooner place place := by
  unfold Sooner
  omega

theorem covered_of_read (h : Group.read database source = .ok g) : g.Covered := by
  obtain ⟨located, -, hbuilt⟩ := read_eq_ok.mp h
  obtain ⟨names, table, htable, hb, hfound, -⟩ := ofStatements_eq_ok hbuilt
  have hmentioned : ∀ a, a ∈ (located.map Located.value).flatMap mentioned ↔
      ∃ p, names.lookup a = some p := by
    intro a
    rw [← isSome_of_declaredFrom htable, Option.isSome_iff_exists]
    constructor
    · rintro ⟨entry, hentry⟩
      exact hb.known hentry
    · rintro ⟨p, hp⟩
      obtain ⟨P, -, hentry, -⟩ := hb.entry hp
      exact ⟨_, hentry⟩
  constructor
  case linked => exact hb.linked
  case live =>
    intro r hr
    obtain ⟨R, hR, -⟩ := (hb.mem_found_iff hfound hmentioned).mp hr
    exact ⟨R, hR⟩
  case rootsOnce => exact nodup_of_roots hfound
  case oneTree => exact fun hP => hb.existsUnique_root hfound hmentioned hP
  case owned => exact hb.owned

namespace Covered

variable (hg : g.Covered)
include hg

theorem nodup_preorder (hr : r ∈ g.roots) : (g.forest.preorder r).Nodup := by
  obtain ⟨R, hR⟩ := hg.live r hr
  exact (hg.linked.mem_preorder hR).2

theorem live_of_mem (hr : r ∈ g.roots) (hp : p ∈ g.forest.preorder r) :
    ∃ P, g.forest.particle? p = some P := by
  obtain ⟨R, hR⟩ := hg.live r hr
  exact (((hg.linked.mem_preorder hR).1 p).mp hp).live hR

/-- No particle is in two trees. -/
theorem eq_of_mem (hr : r ∈ g.roots) (hp : p ∈ g.forest.preorder r) (hr' : r' ∈ g.roots)
    (hp' : p ∈ g.forest.preorder r') : r = r' := by
  obtain ⟨P, hP⟩ := hg.live_of_mem hr hp
  exact (hg.oneTree hP).unique ⟨hr, hp⟩ ⟨hr', hp'⟩

/-- The trees of the roots have all decays that are there. -/
theorem mem_decays : (p, d) ∈ g.roots.flatMap g.forest.decaysBelow ↔
    g.forest.Undergoes p d := by
  rw [List.mem_flatMap]
  constructor
  · rintro ⟨r, -, hpd⟩
    obtain ⟨-, P, hP, hd⟩ := mem_decaysBelow.mp hpd
    exact hg.linked.listed hP hd
  · rintro ⟨D, hD, hp⟩
    obtain ⟨P, hP, hd⟩ := hg.linked.owner hD hp
    obtain ⟨r, ⟨hr, hmem⟩, -⟩ := hg.oneTree hP
    exact ⟨r, hr, mem_decaysBelow.mpr ⟨hmem, P, hP, hd⟩⟩

theorem exists_place (h : g.forest.Undergoes p d) : ∃ place, g.StandsAt p d place := by
  obtain ⟨D, hD, hp⟩ := h
  obtain ⟨P, hP, hd⟩ := hg.linked.owner hD hp
  obtain ⟨r, ⟨hr, hmem⟩, -⟩ := hg.oneTree hP
  obtain ⟨i, hi⟩ := List.mem_iff_getElem?.mp hr
  obtain ⟨j, hj⟩ := List.mem_iff_getElem?.mp hmem
  obtain ⟨k, hk⟩ := List.mem_iff_getElem?.mp hd
  exact ⟨(i, j, k), r, P, hi, hj, hP, hk⟩

/-- A decay in the tree of a root stands at the place of that root. -/
theorem getElem?_of_standsAt {place : Nat × Nat × Nat} (hr : r ∈ g.roots) (hp : p ∈ g.forest.preorder r)
    (h : g.StandsAt p d place) :
    g.roots[place.1]? = some r ∧ (g.forest.preorder r)[place.2.1]? = some p := by
  obtain ⟨r', P, hi, hj, -⟩ := h
  obtain rfl := hg.eq_of_mem hr hp (List.mem_of_getElem? hi) (List.mem_of_getElem? hj)
  exact ⟨hi, hj⟩

/-- The walk through a tree comes to the decays in the order of their places. -/
theorem pairwise_decaysBelow (hr : r ∈ g.roots) : (g.forest.decaysBelow r).Pairwise fun a b =>
    ∀ s t, g.StandsAt a.1 a.2 s → g.StandsAt b.1 b.2 t → Sooner s t := by
  have hroot : ∀ {i j : Nat}, g.roots[i]? = some r → g.roots[j]? = some r → i = j :=
    getElem?_unique hg.rootsOnce
  refine List.pairwise_flatMap.mpr ⟨fun p hp => ?_, ?_⟩
  · obtain ⟨P, hP⟩ := hg.live_of_mem hr hp
    rw [hP]
    refine List.pairwise_map.mpr ((pairwise_getElem?_lt (hg.linked.listedOnce hP)).imp ?_)
    intro d e hlt s t hs ht
    obtain ⟨hi, hj⟩ := hg.getElem?_of_standsAt hr hp hs
    obtain ⟨hi', hj'⟩ := hg.getElem?_of_standsAt hr hp ht
    obtain ⟨-, Q, -, -, hQ, hk⟩ := hs
    obtain ⟨-, Q', -, -, hQ', hk'⟩ := ht
    cases hP.symm.trans hQ
    cases hP.symm.trans hQ'
    have hparticle := getElem?_unique (hg.nodup_preorder hr) hj hj'
    exact .inr ⟨hroot hi hi', .inr ⟨hparticle, hlt _ _ hk hk'⟩⟩
  · refine (pairwise_getElem?_lt (hg.nodup_preorder hr)).imp_of_mem fun {p q} hp hq hlt a ha b hb => ?_
    obtain ⟨P, hP⟩ := hg.live_of_mem hr hp
    obtain ⟨Q, hQ⟩ := hg.live_of_mem hr hq
    rw [hP] at ha
    rw [hQ] at hb
    obtain ⟨d, -, rfl⟩ := List.mem_map.mp ha
    obtain ⟨e, -, rfl⟩ := List.mem_map.mp hb
    intro s t hs ht
    obtain ⟨hi, hj⟩ := hg.getElem?_of_standsAt hr hp hs
    obtain ⟨hi', hj'⟩ := hg.getElem?_of_standsAt hr hq ht
    exact .inr ⟨hroot hi hi', .inl (hlt _ _ hj hj')⟩

/-- So do the walks through all trees. -/
theorem pairwise_decays : (g.roots.flatMap g.forest.decaysBelow).Pairwise fun a b =>
    ∀ s t, g.StandsAt a.1 a.2 s → g.StandsAt b.1 b.2 t → Sooner s t := by
  refine List.pairwise_flatMap.mpr ⟨fun r hr => hg.pairwise_decaysBelow hr, ?_⟩
  refine (pairwise_getElem?_lt hg.rootsOnce).imp_of_mem fun {r r'} hr hr' hlt => ?_
  rintro ⟨p, d⟩ hpd ⟨q, e⟩ hqe s t hs ht
  obtain ⟨hi, -⟩ := hg.getElem?_of_standsAt hr (mem_decaysBelow.mp hpd).1 hs
  obtain ⟨hi', -⟩ := hg.getElem?_of_standsAt hr' (mem_decaysBelow.mp hqe).1 ht
  exact .inl (hlt _ _ hi hi')

end Covered

/-! ### What the check finds -/

theorem impossibleDecays_eq_ok : g.impossibleDecays = .ok found ↔ ∃ results,
    List.Forall₂ (fun (a : ParticleId × DecayId) x => g.forest.impossible? a.1 a.2 = .ok x)
      (g.roots.flatMap g.forest.decaysBelow) results ∧ found = results.filterMap id := by
  constructor
  · intro h
    obtain ⟨results, hresults, h⟩ := exists_of_bind_eq_ok h
    cases h
    exact ⟨results, forall₂_of_mapM_eq_ok hresults, rfl⟩
  · rintro ⟨results, hresults, rfl⟩
    rw [impossibleDecays]
    dsimp only [bind, Except.bind]
    rw [mapM_eq_ok_of_forall₂ hresults]
    rfl

/-- A group has the masses that the check of its decays takes. -/
def Weighable (g : Group) : Prop :=
  ∀ d D, g.forest.decay? d = some D → D.products ≠ [] →
    (∃ p m, D.parent = some p ∧ g.forest.mass? p = some m) ∧
      ∀ q ∈ D.products, ∃ m, g.forest.mass? q = some m

namespace Covered

variable (hg : g.Covered)
include hg

theorem exists_impossibleDecays_iff : (∃ found, g.impossibleDecays = .ok found) ↔ g.Weighable := by
  constructor
  · rintro ⟨found, hfound⟩ d D hD hsome
    obtain ⟨results, hresults, -⟩ := impossibleDecays_eq_ok.mp hfound
    obtain ⟨p, hp⟩ := hg.owned hD
    obtain ⟨x, -, hx⟩ := exists_right_of_forall₂ hresults (hg.mem_decays.mpr ⟨D, hD, hp⟩)
    obtain ⟨⟨m, hm⟩, hproducts⟩ := (exists_impossible?_iff hD).mp ⟨x, hx⟩ hsome
    exact ⟨⟨p, m, hp, hm⟩, hproducts⟩
  · intro h
    have hall : ∀ a ∈ g.roots.flatMap g.forest.decaysBelow,
        ∃ x, g.forest.impossible? a.1 a.2 = .ok x := by
      rintro ⟨p, d⟩ hpd
      obtain ⟨D, hD, hp⟩ := hg.mem_decays.mp hpd
      apply (exists_impossible?_iff hD).mpr
      intro hsome
      obtain ⟨⟨p', m, hp', hm⟩, hproducts⟩ := h d D hD hsome
      cases hp.symm.trans hp'
      exact ⟨⟨m, hm⟩, hproducts⟩
    obtain ⟨results, hresults⟩ := exists_forall₂ hall
    exact ⟨_, impossibleDecays_eq_ok.mpr ⟨results, hresults, rfl⟩⟩

variable (hfound : g.impossibleDecays = .ok found)
include hfound

theorem mem_found_iff : x ∈ found ↔ g.forest.Undergoes x.parent x.decay ∧ g.forest.Exceeds x := by
  obtain ⟨results, hresults, rfl⟩ := impossibleDecays_eq_ok.mp hfound
  rw [List.mem_filterMap]
  constructor
  · rintro ⟨found, hmem, rfl⟩
    obtain ⟨⟨p, d⟩, hpd, hx⟩ := exists_left_of_forall₂ hresults hmem
    obtain ⟨hkey, hexceeds⟩ := impossible?_eq_some.mp hx
    cases hkey
    exact ⟨hg.mem_decays.mp hpd, hexceeds⟩
  · rintro ⟨hdecay, hexceeds⟩
    obtain ⟨y, hy, hpd⟩ := exists_right_of_forall₂ hresults (hg.mem_decays.mpr hdecay)
    cases (impossible?_eq_some.mpr ⟨rfl, hexceeds⟩).symm.trans hpd
    exact ⟨some x, hy, rfl⟩

theorem pairwise_found : found.Pairwise fun x y =>
    ∀ s t, g.StandsAt x.parent x.decay s → g.StandsAt y.parent y.decay t → Sooner s t := by
  obtain ⟨results, hresults, rfl⟩ := impossibleDecays_eq_ok.mp hfound
  have hkeys := sublist_of_forall₂ (fun x : ImpossibleDecay => (x.parent, x.decay)) hresults
    fun a x hx => (impossible?_eq_some.mp hx).1
  exact List.pairwise_map.mp (hg.pairwise_decays.sublist hkeys)

/-- No decay is found twice. -/
theorem nodup_found : (found.map ImpossibleDecay.decay).Nodup := by
  refine List.pairwise_map.mpr ((hg.pairwise_found hfound).imp_of_mem ?_)
  intro x y hx hy hsooner heq
  obtain ⟨hpx, -⟩ := (hg.mem_found_iff hfound).mp hx
  obtain ⟨hpy, -⟩ := (hg.mem_found_iff hfound).mp hy
  obtain ⟨place, hplace⟩ := hg.exists_place hpx
  obtain ⟨D, hD, hp⟩ := hpx
  obtain ⟨E, hE, hq⟩ := hpy
  rw [heq] at hD
  cases hD.symm.trans hE
  have hparent := Option.some.inj (hp.symm.trans hq)
  exact not_sooner_self place (hsooner place place hplace (hparent ▸ heq ▸ hplace))

end Covered

/-- The check of a group that has been read succeeds exactly if there are the masses that it takes, for all
decays with products that the forest has. It finds those decays that are too heavy, each of them once, with
the particle that decays and both masses, in the order of their places. -/
theorem read_impossibleDecays (h : Group.read database source = .ok g) :
    ((∃ found, g.impossibleDecays = .ok found) ↔ g.Weighable) ∧
    ∀ found, g.impossibleDecays = .ok found →
      (∀ x, x ∈ found ↔ g.forest.Undergoes x.parent x.decay ∧ g.forest.Exceeds x) ∧
      (found.map ImpossibleDecay.decay).Nodup ∧
      (∀ x ∈ found, ∃ place, g.StandsAt x.parent x.decay place) ∧
      found.Pairwise fun x y =>
        ∀ s t, g.StandsAt x.parent x.decay s → g.StandsAt y.parent y.decay t → Sooner s t := by
  have hg := covered_of_read h
  refine ⟨hg.exists_impossibleDecays_iff, fun found hfound => ⟨fun x => hg.mem_found_iff hfound,
    hg.nodup_found hfound, fun x hx => ?_, hg.pairwise_found hfound⟩⟩
  exact hg.exists_place ((hg.mem_found_iff hfound).mp hx).1

/-- A database with a mass for one species. -/
def massOfB : Database where
  species := .ofList [("B", .ofEntries [("mass", .number 2)])]

/-- A particle of known mass decays into one whose mass is known from its species, and that one decays into
nothing. -/
def productOfSpecies : Group where
  forest := Operation.addDecay ⟨1, 0⟩ [] ∅ |>.after <|
    Operation.addDecay ⟨0, 0⟩ [⟨1, 0⟩] ∅ |>.after <|
    Operation.addParticle "B" ∅ |>.after <|
    Operation.addParticle "A" (.ofEntries [("mass", .text "1")]) |>.after { database := massOfB }
  roots := [⟨0, 0⟩]

theorem read_impossibleDecays_productOfSpecies :
    Group.read massOfB "A[mass=1]; A -> \x7b B \x7d; B -> \x7b\x7d" = .ok productOfSpecies ∧
      ∃ found, productOfSpecies.impossibleDecays = .ok found ∧ ∀ x ∈ found, x.decay = ⟨0, 0⟩ := by
  have hbuilt : ofStatements massOfB [.node "A" (.ofEntries [("mass", .text "1")]), .edge "A" ["B"] ∅,
      .edge "B" [] ∅] = .ok productOfSpecies :=
    ofStatements_of_build (Building.on_build_eq_ok.mpr
      ⟨_, _, _, rfl, rfl, rfl, List.forall_mem_singleton.mpr rfl⟩)
  have hread : Group.read massOfB "A[mass=1]; A -> \x7b B \x7d; B -> \x7b\x7d" = .ok productOfSpecies :=
    read_eq_ok.mpr ⟨[⟨⟨1, 1⟩, .node "A" (.ofEntries [("mass", .text "1")])⟩, ⟨⟨1, 12⟩, .edge "A" ["B"] ∅⟩,
      ⟨⟨1, 24⟩, .edge "B" [] ∅⟩], rfl, hbuilt⟩
  have hdecays : ∀ d D, productOfSpecies.forest.decay? d = some D → D.products ≠ [] →
      d = ⟨0, 0⟩ ∧ D = ⟨[⟨1, 0⟩], ∅, some ⟨0, 0⟩, 2⟩ := by
    rintro ⟨⟨_ | _ | n, _ | m⟩⟩ D hD hsome <;> cases hD
    · exact ⟨rfl, rfl⟩
    · exact (hsome rfl).elim
  obtain ⟨hsucceeds, hfound⟩ := read_impossibleDecays hread
  have hweighable : productOfSpecies.Weighable := by
    intro d D hD hsome
    obtain ⟨-, rfl⟩ := hdecays d D hD hsome
    refine ⟨⟨⟨0, 0⟩, _, rfl, rfl⟩, fun q hq => ?_⟩
    cases List.mem_singleton.mp hq
    exact ⟨_, rfl⟩
  obtain ⟨found, hok⟩ := hsucceeds.mpr hweighable
  refine ⟨hread, found, hok, fun x hx => ?_⟩
  obtain ⟨hmem, -⟩ := hfound found hok
  obtain ⟨-, D, masses, hD, hsome, -⟩ := (hmem x).mp hx
  exact (hdecays _ D hD hsome).1

end Group

end DecayForest
