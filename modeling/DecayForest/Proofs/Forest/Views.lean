import DecayForest.Proofs.Arena
import DecayForest.Proofs.Forest.Running
/-!
# What a forest shows

A forest is seen through `particle?` and `decay?`. Each primitive change is a function on forests here,
with one equation for either view. A forest `Precedes` what comes of it: handles that are spent stay
spent, and the serial numbers go on.
-/

namespace DecayForest

theorem ParticleId.key_eq_iff {x y : ParticleId} : x.key = y.key ↔ x = y := by
  cases x
  cases y
  exact ParticleId.mk.injEq .. ▸ Iff.rfl

theorem DecayId.key_eq_iff {d e : DecayId} : d.key = e.key ↔ d = e := by
  cases d
  cases e
  exact DecayId.mk.injEq .. ▸ Iff.rfl

namespace Forest

/-- A forest with one more particle. -/
def plusParticle (f : Forest) (type : String) (params : ParamList) : Forest :=
  { f with
    particles := f.particles.insert { type, params, serial := f.nextSerial }
    nextSerial := f.nextSerial + 1 }

/-- A forest with one more decay, which belongs to no particle. -/
def plusDecay (f : Forest) (products : List ParticleId) (params : ParamList) : Forest :=
  { f with
    decays := f.decays.insert { products, params, serial := f.nextSerial }
    nextSerial := f.nextSerial + 1 }

/-- A forest with a change of one particle, if that is there. -/
def mapParticle (f : Forest) (id : ParticleId) (change : Particle → Particle) : Forest :=
  { f with particles := f.particles.modify id.key change }

/-- A forest with a change of one decay, if that is there. -/
def mapDecay (f : Forest) (id : DecayId) (change : Decay → Decay) : Forest :=
  { f with decays := f.decays.modify id.key change }

/-- A forest with another parent for some particles. -/
def withParent (f : Forest) (parent : Option ParticleId) (ids : List ParticleId) : Forest :=
  ids.foldl (fun f id => f.mapParticle id fun p => { p with parent }) f

/-- A forest without a particle. -/
def minusParticle (f : Forest) (id : ParticleId) : Forest :=
  { f with particles := f.particles.remove id.key }

/-- A forest without a decay. -/
def minusDecay (f : Forest) (id : DecayId) : Forest :=
  { f with decays := f.decays.remove id.key }

/-- No particle that is added from now on gets this handle. -/
def Spent (f : Forest) (x : ParticleId) : Prop :=
  f.particles.Spent x.key

/-- No decay that is added from now on gets this handle. -/
def SpentDecay (f : Forest) (d : DecayId) : Prop :=
  f.decays.Spent d.key

/-- What a forest gives handles and serial numbers out by. -/
def frame (f : Forest) : (Nat × List Nat × Nat) × (Nat × List Nat × Nat) × Nat :=
  (f.particles.frame, f.decays.frame, f.nextSerial)

variable {f g h : Forest} {id x : ParticleId} {d y : DecayId} {p : Particle} {D : Decay}

theorem particle_of_some (h : f.particle? id = some p) : f.particle id = .ok p := by
  rw [particle, h]

theorem particle_of_none (h : f.particle? id = none) : f.particle id = .error (.deadParticle id) := by
  rw [particle, h]

theorem decay_of_some (h : f.decay? d = some D) : f.decay d = .ok D := by
  rw [decay, h]

theorem decay_of_none (h : f.decay? d = none) : f.decay d = .error (.deadDecay d) := by
  rw [decay, h]

theorem decay_eq_ok : f.decay d = .ok D ↔ f.decay? d = some D := by
  unfold decay
  split <;> simp_all

/-! ### Spent handles -/

theorem spent_of_particle? (h : f.particle? x = some p) : f.Spent x :=
  Arena.spent_of_get? h

theorem spent_of_decay? (h : f.decay? y = some D) : f.SpentDecay y :=
  Arena.spent_of_get? h

theorem particle?_of_not_spent (h : ¬ f.Spent x) : f.particle? x = none :=
  Option.eq_none_iff_forall_ne_some.mpr fun _ hp => h (spent_of_particle? hp)

theorem decay?_of_not_spent (h : ¬ f.SpentDecay y) : f.decay? y = none :=
  Option.eq_none_iff_forall_ne_some.mpr fun _ hD => h (spent_of_decay? hD)

theorem not_spent_next (f : Forest) : ¬ f.Spent f.nextParticle :=
  f.particles.not_spent_next

theorem not_spentDecay_next (f : Forest) : ¬ f.SpentDecay f.nextDecay :=
  f.decays.not_spent_next

theorem ne_next_of_spent (h : f.Spent x) : x ≠ f.nextParticle :=
  fun heq => f.not_spent_next (heq ▸ h)

theorem ne_nextDecay_of_spent (h : f.SpentDecay y) : y ≠ f.nextDecay :=
  fun heq => f.not_spentDecay_next (heq ▸ h)

/-! ### One more particle or decay -/

@[simp] theorem database_plusParticle (f : Forest) (type : String) (params : ParamList) :
    (f.plusParticle type params).database = f.database := rfl

@[simp] theorem database_plusDecay (f : Forest) (products : List ParticleId) (params : ParamList) :
    (f.plusDecay products params).database = f.database := rfl

theorem particle?_plusParticle (f : Forest) (type : String) (params : ParamList) (x : ParticleId) :
    (f.plusParticle type params).particle? x =
      if x = f.nextParticle then some ⟨type, params, none, [], f.nextSerial⟩ else f.particle? x := by
  simp only [← ParticleId.key_eq_iff]
  exact f.particles.get?_insert _ _

@[simp] theorem decay?_plusParticle (f : Forest) (type : String) (params : ParamList) (y : DecayId) :
    (f.plusParticle type params).decay? y = f.decay? y := rfl

@[simp] theorem particle?_plusDecay (f : Forest) (products : List ParticleId) (params : ParamList)
    (x : ParticleId) : (f.plusDecay products params).particle? x = f.particle? x := rfl

theorem decay?_plusDecay (f : Forest) (products : List ParticleId) (params : ParamList) (y : DecayId) :
    (f.plusDecay products params).decay? y =
      if y = f.nextDecay then some ⟨products, params, none, f.nextSerial⟩ else f.decay? y := by
  simp only [← DecayId.key_eq_iff]
  exact f.decays.get?_insert _ _

theorem particle?_plusParticle_of_spent (h : f.Spent x) (type : String) (params : ParamList) :
    (f.plusParticle type params).particle? x = f.particle? x := by
  rw [particle?_plusParticle, if_neg (ne_next_of_spent h)]

theorem decay?_plusDecay_of_spent (h : f.SpentDecay y) (products : List ParticleId)
    (params : ParamList) : (f.plusDecay products params).decay? y = f.decay? y := by
  rw [decay?_plusDecay, if_neg (ne_nextDecay_of_spent h)]

theorem spent_plusParticle {type : String} {params : ParamList} :
    (f.plusParticle type params).Spent x ↔ x = f.nextParticle ∨ f.Spent x :=
  Arena.spent_insert.trans (or_congr_left ParticleId.key_eq_iff)

theorem spentDecay_plusDecay {products : List ParticleId} {params : ParamList} :
    (f.plusDecay products params).SpentDecay y ↔ y = f.nextDecay ∨ f.SpentDecay y :=
  Arena.spent_insert.trans (or_congr_left DecayId.key_eq_iff)

/-! ### Another particle or decay -/

@[simp] theorem frame_mapParticle (f : Forest) (id : ParticleId) (change : Particle → Particle) :
    (f.mapParticle id change).frame = f.frame :=
  congrArg (·, f.decays.frame, f.nextSerial) (f.particles.frame_modify id.key change)

@[simp] theorem database_mapParticle (f : Forest) (id : ParticleId) (change : Particle → Particle) :
    (f.mapParticle id change).database = f.database := rfl

@[simp] theorem frame_mapDecay (f : Forest) (d : DecayId) (change : Decay → Decay) :
    (f.mapDecay d change).frame = f.frame :=
  congrArg (f.particles.frame, ·, f.nextSerial) (f.decays.frame_modify d.key change)

@[simp] theorem database_mapDecay (f : Forest) (d : DecayId) (change : Decay → Decay) :
    (f.mapDecay d change).database = f.database := rfl

theorem particle?_mapParticle (f : Forest) (id : ParticleId) (change : Particle → Particle)
    (x : ParticleId) :
    (f.mapParticle id change).particle? x =
      if x = id then (f.particle? id).map change else f.particle? x := by
  simp only [← ParticleId.key_eq_iff]
  exact f.particles.get?_modify _ _ _

@[simp] theorem decay?_mapParticle (f : Forest) (id : ParticleId) (change : Particle → Particle)
    (y : DecayId) : (f.mapParticle id change).decay? y = f.decay? y := rfl

theorem decay?_mapDecay (f : Forest) (d : DecayId) (change : Decay → Decay) (y : DecayId) :
    (f.mapDecay d change).decay? y = if y = d then (f.decay? d).map change else f.decay? y := by
  simp only [← DecayId.key_eq_iff]
  exact f.decays.get?_modify _ _ _

@[simp] theorem particle?_mapDecay (f : Forest) (d : DecayId) (change : Decay → Decay)
    (x : ParticleId) : (f.mapDecay d change).particle? x = f.particle? x := rfl

/-! ### Another parent -/

@[simp] theorem frame_withParent (f : Forest) (parent : Option ParticleId) (ids : List ParticleId) :
    (f.withParent parent ids).frame = f.frame := by
  unfold withParent
  induction ids generalizing f with
  | nil => rfl
  | cons id ids ih => rw [List.foldl_cons, ih, frame_mapParticle]

@[simp] theorem database_withParent (f : Forest) (parent : Option ParticleId)
    (ids : List ParticleId) : (f.withParent parent ids).database = f.database := by
  unfold withParent
  induction ids generalizing f with
  | nil => rfl
  | cons id ids ih => rw [List.foldl_cons, ih, database_mapParticle]

@[simp] theorem decay?_withParent (f : Forest) (parent : Option ParticleId) (ids : List ParticleId)
    (y : DecayId) : (f.withParent parent ids).decay? y = f.decay? y := by
  unfold withParent
  induction ids generalizing f with
  | nil => rfl
  | cons id ids ih => rw [List.foldl_cons, ih, decay?_mapParticle]

theorem particle?_withParent (f : Forest) (parent : Option ParticleId) (ids : List ParticleId)
    (x : ParticleId) :
    (f.withParent parent ids).particle? x =
      (f.particle? x).map fun p => { p with parent := if x ∈ ids then parent else p.parent } := by
  unfold withParent
  induction ids generalizing f with
  | nil => simp
  | cons id ids ih =>
    rw [List.foldl_cons, ih, particle?_mapParticle]
    by_cases hx : x = id
    · subst hx
      cases f.particle? x <;> simp
    · simp [hx]

/-! ### One particle or decay fewer -/

theorem particle?_minusParticle (f : Forest) (id x : ParticleId) :
    (f.minusParticle id).particle? x = if x = id then none else f.particle? x := by
  simp only [← ParticleId.key_eq_iff]
  exact f.particles.get?_remove _ _

@[simp] theorem decay?_minusParticle (f : Forest) (id : ParticleId) (y : DecayId) :
    (f.minusParticle id).decay? y = f.decay? y := rfl

@[simp] theorem particle?_minusDecay (f : Forest) (d : DecayId) (x : ParticleId) :
    (f.minusDecay d).particle? x = f.particle? x := rfl

theorem decay?_minusDecay (f : Forest) (d y : DecayId) :
    (f.minusDecay d).decay? y = if y = d then none else f.decay? y := by
  simp only [← DecayId.key_eq_iff]
  exact f.decays.get?_remove _ _

/-! ### What comes of a forest -/

/-- `g` can have come of `f`: what is spent stays spent, and the serial numbers go on. -/
structure Precedes (f g : Forest) : Prop where
  spent : ∀ {x}, f.Spent x → g.Spent x
  spentDecay : ∀ {d}, f.SpentDecay d → g.SpentDecay d
  serial : f.nextSerial ≤ g.nextSerial

theorem spent_congr (h : f.frame = g.frame) : f.Spent x ↔ g.Spent x :=
  Arena.spent_congr (Prod.mk.inj h).1

theorem spentDecay_congr (h : f.frame = g.frame) : f.SpentDecay y ↔ g.SpentDecay y :=
  Arena.spent_congr (Prod.mk.inj (Prod.mk.inj h).2).1

theorem nextSerial_congr (h : f.frame = g.frame) : f.nextSerial = g.nextSerial :=
  (Prod.mk.inj (Prod.mk.inj h).2).2

namespace Precedes

protected theorem refl (f : Forest) : Precedes f f := ⟨id, id, Nat.le_refl _⟩

theorem trans (hfg : Precedes f g) (hgh : Precedes g h) : Precedes f h where
  spent hx := hgh.spent (hfg.spent hx)
  spentDecay hd := hgh.spentDecay (hfg.spentDecay hd)
  serial := Nat.le_trans hfg.serial hgh.serial

theorem of_frame (h : g.frame = f.frame) : Precedes f g where
  spent := (spent_congr h).mpr
  spentDecay := (spentDecay_congr h).mpr
  serial := Nat.le_of_eq (nextSerial_congr h).symm

theorem plusParticle (f : Forest) (type : String) (params : ParamList) :
    Precedes f (f.plusParticle type params) where
  spent hx := spent_plusParticle.mpr (.inr hx)
  spentDecay := id
  serial := Nat.le_succ _

theorem plusDecay (f : Forest) (products : List ParticleId) (params : ParamList) :
    Precedes f (f.plusDecay products params) where
  spent := id
  spentDecay hd := spentDecay_plusDecay.mpr (.inr hd)
  serial := Nat.le_succ _

theorem minusParticle (f : Forest) (id : ParticleId) : Precedes f (f.minusParticle id) where
  spent hx := Arena.Spent.remove hx id.key
  spentDecay hd := hd
  serial := Nat.le_refl _

theorem minusDecay (f : Forest) (d : DecayId) : Precedes f (f.minusDecay d) where
  spent hx := hx
  spentDecay hd := Arena.Spent.remove hd d.key
  serial := Nat.le_refl _

end Precedes

/-! ### How many there are -/

private theorem key_injective : Function.Injective ParticleId.key :=
  fun _ _ => ParticleId.key_eq_iff.mp

private theorem decayKey_injective : Function.Injective DecayId.key :=
  fun _ _ => DecayId.key_eq_iff.mp

/-- A list of all particles, each once, has as many items as there are particles. -/
theorem length_eq_particleCount {l : List ParticleId} (hl : l.Nodup)
    (hlive : ∀ x, x ∈ l ↔ ∃ X, f.particle? x = some X) : l.length = f.particleCount := by
  rw [particleCount, ← Arena.length_eq_count (hl.map key_injective), List.length_map]
  exact fun k => (List.mem_map_of_injective key_injective (a := ⟨k⟩)).trans (hlive ⟨k⟩)

/-- New particles count on top of the old ones. -/
theorem particleCount_eq_add {new : List ParticleId}
    (hold : ∀ x, f.Spent x → (g.particle? x).isSome = (f.particle? x).isSome)
    (hnodup : new.Nodup) (hnew : ∀ x, x ∈ new ↔ ¬ f.Spent x ∧ ∃ X, g.particle? x = some X) :
    g.particleCount = f.particleCount + new.length := by
  rw [← List.length_map (f := ParticleId.key)]
  refine Arena.count_eq_add (fun k => hold ⟨k⟩) (hnodup.map key_injective) fun k => ?_
  exact (List.mem_map_of_injective key_injective (a := ⟨k⟩)).trans (hnew ⟨k⟩)

/-- New decays count on top of the old ones. -/
theorem decayCount_eq_add {new : List DecayId}
    (hold : ∀ d, f.SpentDecay d → (g.decay? d).isSome = (f.decay? d).isSome)
    (hnodup : new.Nodup) (hnew : ∀ d, d ∈ new ↔ ¬ f.SpentDecay d ∧ ∃ D, g.decay? d = some D) :
    g.decayCount = f.decayCount + new.length := by
  rw [← List.length_map (f := DecayId.key)]
  refine Arena.count_eq_add (fun k => hold ⟨k⟩) (hnodup.map decayKey_injective) fun k => ?_
  exact (List.mem_map_of_injective decayKey_injective (a := ⟨k⟩)).trans (hnew ⟨k⟩)

/-- No more particles are in the slots than there are slots. -/
theorem length_le_room {l : List ParticleId} (hl : l.Nodup)
    (hlive : ∀ x ∈ l, ∃ X, f.particle? x = some X) : l.length ≤ f.room := by
  rw [← List.length_map (f := ParticleId.key)]
  exact Arena.length_le_size (hl.map key_injective) (List.forall_mem_map.mpr hlive)

/-! ### Forests that look the same -/

/-- A forest is what its two views show, with what it gives handles out by and its database. -/
theorem eq_of_views (hframe : f.frame = g.frame) (hdatabase : f.database = g.database)
    (hparticle : ∀ x, f.particle? x = g.particle? x) (hdecay : ∀ y, f.decay? y = g.decay? y) :
    f = g := by
  obtain ⟨hparticles, hrest⟩ := Prod.mk.inj hframe
  obtain ⟨hdecays, hserial⟩ := Prod.mk.inj hrest
  have hp : f.particles = g.particles := Arena.eq_of_get? hparticles fun k => hparticle ⟨k⟩
  have hd : f.decays = g.decays := Arena.eq_of_get? hdecays fun k => hdecay ⟨k⟩
  cases f
  cases g
  congr

theorem mapParticle_of_none (h : f.particle? id = none) (change : Particle → Particle) :
    f.mapParticle id change = f :=
  congrArg (fun particles => { f with particles }) (Arena.modify_of_none h change)

/-- A change is what it makes of the particle. -/
theorem mapParticle_congr {change change' : Particle → Particle} (h : f.particle? id = some p)
    (heq : change p = change' p) : f.mapParticle id change = f.mapParticle id change' := by
  refine eq_of_views (by rw [frame_mapParticle, frame_mapParticle]) rfl (fun x => ?_) fun _ => rfl
  rw [particle?_mapParticle, particle?_mapParticle, h, Option.map_some, Option.map_some, heq]

end Forest

/-! ### Primitive edits -/

namespace Edit

open Forest

variable {f : Forest} {id : ParticleId} {d : DecayId} {p : Particle} {D : Decay}

@[simp] theorem on_addParticle (type : String) (params : ParamList) (f : Forest) :
    (addParticle type params).on f = (.ok f.nextParticle, f.plusParticle type params) := rfl

theorem on_ask_particle (h : f.particle? id = some p) :
    (ask (·.particle id)).on f = (.ok p, f) := by
  rw [on_ask, particle_of_some h]

theorem on_ask_decay (h : f.decay? d = some D) : (ask (·.decay d)).on f = (.ok D, f) := by
  rw [on_ask, decay_of_some h]

theorem on_ask_particle_dead (h : f.particle? id = none) :
    (ask (·.particle id)).on f = (.error (.deadParticle id), f) := by
  rw [on_ask, particle_of_none h]

theorem on_ask_decay_dead (h : f.decay? d = none) :
    (ask (·.decay d)).on f = (.error (.deadDecay d), f) := by
  rw [on_ask, decay_of_none h]

theorem on_modifyParticle (h : f.particle? id = some p) (change : Particle → Particle) :
    (modifyParticle id change).on f = (.ok (), f.mapParticle id change) := by
  unfold modifyParticle
  rw [on_bind_of_ok (on_ask_particle h)]
  rfl

theorem on_modifyParticle_dead (h : f.particle? id = none) (change : Particle → Particle) :
    (modifyParticle id change).on f = (.error (.deadParticle id), f) := by
  unfold modifyParticle
  exact on_bind_of_error (on_ask_particle_dead h)

theorem on_modifyDecay (h : f.decay? d = some D) (change : Decay → Decay) :
    (modifyDecay d change).on f = (.ok (), f.mapDecay d change) := by
  unfold modifyDecay
  rw [on_bind_of_ok (on_ask_decay h)]
  rfl

theorem on_modifyDecay_dead (h : f.decay? d = none) (change : Decay → Decay) :
    (modifyDecay d change).on f = (.error (.deadDecay d), f) := by
  unfold modifyDecay
  exact on_bind_of_error (on_ask_decay_dead h)

theorem on_forM_parent (parent : Option ParticleId) (ids : List ParticleId)
    (h : ∀ id ∈ ids, (f.particle? id).isSome) :
    (ids.forM fun id => modifyParticle id fun p => { p with parent }).on f =
      (.ok (), f.withParent parent ids) := by
  induction ids generalizing f with
  | nil => rfl
  | cons id ids ih =>
    obtain ⟨p, hp⟩ := Option.isSome_iff_exists.mp (h id List.mem_cons_self)
    refine (on_bind_of_ok (on_modifyParticle hp _)).trans ?_
    refine ih fun x hx => ?_
    rw [particle?_mapParticle]
    split
    · rw [hp]; rfl
    · exact h x (List.mem_cons_of_mem _ hx)

end Edit

end DecayForest
