import DecayForest.Proofs.Forest.Linkage
/-!
# Attachment and release of decays

The two changes of linkage: a decay is attached to a particle, or decays are released from it. Both
keep a forest linked, under the conditions that the checks before an edit establish. Changes of
anything but links keep it linked too (`SameLinks.linked`).
-/

namespace DecayForest

/-- What a particle says about linkage. -/
def Particle.links (p : Particle) : Option ParticleId × List DecayId :=
  (p.parent, p.decays)

/-- What a decay says about linkage. -/
def Decay.links (d : Decay) : Option ParticleId × List ParticleId :=
  (d.parent, d.products)

namespace Forest

/-- A forest with a decay added to the decays of a particle, and that particle made the parent of
the decay and of `products`. -/
def attached (f : Forest) (id : ParticleId) (d : DecayId) (products : List ParticleId) : Forest :=
  ((f.withParent (some id) products).mapDecay d fun D => { D with parent := some id }).mapParticle
    id fun p => { p with decays := p.decays ++ [d] }

/-- A forest with the parent taken from a decay and from `products`. -/
def detached (f : Forest) (d : DecayId) (products : List ParticleId) : Forest :=
  (f.withParent none products).mapDecay d fun D => { D with parent := none }

/-- `g` is `f` with the decays in `gone` taken from a particle, which keeps those in `kept`. -/
structure Released (f g : Forest) (p : ParticleId) (kept gone : List DecayId) : Prop where
  frame : g.frame = f.frame
  database : g.database = f.database
  particle? : ∀ x, g.particle? x = (f.particle? x).map fun X => { X with
    parent := if x ∈ f.productsOf gone then none else X.parent
    decays := if x = p then kept else X.decays }
  decay? : ∀ y, g.decay? y = (f.decay? y).map fun Y => { Y with
    parent := if y ∈ gone then none else Y.parent }

variable {f g : Forest} {p q x : ParticleId} {P X : Particle} {d y : DecayId} {D Y : Decay}
  {ds : List DecayId} {products : List ParticleId}

/-! ### Forests with the same links -/

/-- `g` has all links of `f`, and no others: it may have new particles without links, and new decays
without a parent. -/
structure SameLinks (f g : Forest) : Prop where
  particle? : ∀ x, (g.particle? x).map Particle.links = (f.particle? x).map Particle.links ∨
    f.particle? x = none ∧ (g.particle? x).map Particle.links = some (none, [])
  decay? : ∀ y, (g.decay? y).map Decay.links = (f.decay? y).map Decay.links ∨
    f.decay? y = none ∧ ∃ products, (g.decay? y).map Decay.links = some (none, products)

namespace SameLinks

theorem particle_of_some (h : SameLinks f g) (hX : f.particle? x = some X) :
    ∃ X', g.particle? x = some X' ∧ X'.parent = X.parent ∧ X'.decays = X.decays := by
  rcases h.particle? x with h | ⟨h, -⟩
  · rw [hX] at h
    obtain ⟨X', hX', hl⟩ := Option.map_eq_some_iff.mp h
    exact ⟨X', hX', (Prod.mk.inj hl).1, (Prod.mk.inj hl).2⟩
  · cases h.symm.trans hX

theorem particle_cases (h : SameLinks f g) (hX : g.particle? x = some X) :
    (∃ X', f.particle? x = some X' ∧ X.parent = X'.parent ∧ X.decays = X'.decays) ∨
      X.parent = none ∧ X.decays = [] := by
  rcases h.particle? x with h | ⟨-, h⟩ <;> rw [hX] at h
  · obtain ⟨X', hX', hl⟩ := Option.map_eq_some_iff.mp h.symm
    exact .inl ⟨X', hX', (Prod.mk.inj hl).1.symm, (Prod.mk.inj hl).2.symm⟩
  · exact .inr ⟨(Prod.mk.inj (Option.some.inj h)).1, (Prod.mk.inj (Option.some.inj h)).2⟩

theorem decay_of_some (h : SameLinks f g) (hY : f.decay? y = some Y) :
    ∃ Y', g.decay? y = some Y' ∧ Y'.parent = Y.parent ∧ Y'.products = Y.products := by
  rcases h.decay? y with h | ⟨h, -⟩
  · rw [hY] at h
    obtain ⟨Y', hY', hl⟩ := Option.map_eq_some_iff.mp h
    exact ⟨Y', hY', (Prod.mk.inj hl).1, (Prod.mk.inj hl).2⟩
  · cases h.symm.trans hY

theorem decay_of_parent (h : SameLinks f g) (hY : g.decay? y = some Y) (hp : Y.parent = some p) :
    ∃ Y', f.decay? y = some Y' ∧ Y'.parent = some p ∧ Y.products = Y'.products := by
  rcases h.decay? y with h | ⟨-, products, h⟩ <;> rw [hY] at h
  · obtain ⟨Y', hY', hl⟩ := Option.map_eq_some_iff.mp h.symm
    exact ⟨Y', hY', (Prod.mk.inj hl).1.trans hp, (Prod.mk.inj hl).2.symm⟩
  · cases (Prod.mk.inj (Option.some.inj h)).1.symm.trans hp

theorem parentOf_iff (h : SameLinks f g) : g.ParentOf p q ↔ f.ParentOf p q := by
  rw [Forest.parentOf_iff, Forest.parentOf_iff]
  constructor
  · rintro ⟨Q, hQ, hp⟩
    rcases h.particle_cases hQ with ⟨Q', hQ', hpar, -⟩ | ⟨hnone, -⟩
    · exact ⟨Q', hQ', hpar ▸ hp⟩
    · cases hnone.symm.trans hp
  · rintro ⟨Q, hQ, hp⟩
    obtain ⟨Q', hQ', hpar, -⟩ := h.particle_of_some hQ
    exact ⟨Q', hQ', hpar.trans hp⟩

/-- Linkage is a matter of links alone. -/
theorem linked (h : SameLinks f g) (hf : Linked f) : Linked g := by
  constructor
  case listed =>
    intro p P d hP hd
    rcases h.particle_cases hP with ⟨P', hP', -, hdecays⟩ | ⟨-, hnil⟩
    · obtain ⟨D, hD, hpar⟩ := hf.listed hP' (hdecays ▸ hd)
      obtain ⟨D', hD', hpar', -⟩ := h.decay_of_some hD
      exact ⟨D', hD', hpar'.trans hpar⟩
    · rw [hnil] at hd
      cases hd
  case listedOnce =>
    intro p P hP
    rcases h.particle_cases hP with ⟨P', hP', -, hdecays⟩ | ⟨-, hnil⟩
    · exact hdecays ▸ hf.listedOnce hP'
    · exact hnil ▸ List.nodup_nil
  case owner =>
    intro d D p hD hp
    obtain ⟨D', hD', hp', -⟩ := h.decay_of_parent hD hp
    obtain ⟨P, hP, hd⟩ := hf.owner hD' hp'
    obtain ⟨P', hP', -, hdecays⟩ := h.particle_of_some hP
    exact ⟨P', hP', hdecays ▸ hd⟩
  case product =>
    intro d D p q hD hp hq
    obtain ⟨D', hD', hp', hprod⟩ := h.decay_of_parent hD hp
    exact h.parentOf_iff.mpr (hf.product hD' hp' (hprod ▸ hq))
  case productOnce =>
    intro d D p hD hp
    obtain ⟨D', hD', hp', hprod⟩ := h.decay_of_parent hD hp
    exact hprod ▸ hf.productOnce hD' hp'
  case origin =>
    intro p q hpq
    obtain ⟨d, D, hD, hp, hq⟩ := hf.origin (h.parentOf_iff.mp hpq)
    obtain ⟨D', hD', hpar, hprod⟩ := h.decay_of_some hD
    exact ⟨d, D', hD', hpar.trans hp, hprod ▸ hq⟩
  case originOnce =>
    intro d d' D D' p p' q hD hD' hp hp' hq hq'
    obtain ⟨E, hE, hpE, hprod⟩ := h.decay_of_parent hD hp
    obtain ⟨E', hE', hpE', hprod'⟩ := h.decay_of_parent hD' hp'
    exact hf.originOnce hE hE' hpE hpE' (hprod ▸ hq) (hprod' ▸ hq')
  case grounded => exact Subrelation.wf h.parentOf_iff.mp hf.grounded

end SameLinks

theorem Linked.plusParticle (hf : Linked f) (type : String) (params : ParamList) :
    Linked (f.plusParticle type params) := by
  refine SameLinks.linked (f := f) ⟨fun x => ?_, fun y => .inl rfl⟩ hf
  rw [particle?_plusParticle]
  split
  · next h =>
    subst h
    exact .inr ⟨particle?_of_not_spent f.not_spent_next, rfl⟩
  · exact .inl rfl

theorem Linked.plusDecay (hf : Linked f) (products : List ParticleId) (params : ParamList) :
    Linked (f.plusDecay products params) := by
  refine SameLinks.linked (f := f) ⟨fun x => .inl rfl, fun y => ?_⟩ hf
  rw [decay?_plusDecay]
  split
  · next h =>
    subst h
    exact .inr ⟨decay?_of_not_spent f.not_spentDecay_next, products, rfl⟩
  · exact .inl rfl

theorem Linked.mapParticle (hf : Linked f) {change : Particle → Particle}
    (h : ∀ p, (change p).links = p.links) (id : ParticleId) : Linked (f.mapParticle id change) := by
  refine SameLinks.linked ⟨fun x => .inl ?_, fun y => .inl (by rw [decay?_mapParticle])⟩ hf
  rw [particle?_mapParticle]
  split
  · next hx =>
    subst hx
    rw [Option.map_map]
    exact congrArg (Option.map · _) (funext h)
  · rfl

theorem Linked.mapDecay (hf : Linked f) {change : Decay → Decay}
    (h : ∀ d, (change d).links = d.links) (d : DecayId) : Linked (f.mapDecay d change) := by
  refine SameLinks.linked ⟨fun x => .inl (by rw [particle?_mapDecay]), fun y => .inl ?_⟩ hf
  rw [decay?_mapDecay]
  split
  · next hy =>
    subst hy
    rw [Option.map_map]
    exact congrArg (Option.map · _) (funext h)
  · rfl

/-! ### Attachment -/

@[simp] theorem frame_attached (f : Forest) (id : ParticleId) (d : DecayId)
    (products : List ParticleId) : (f.attached id d products).frame = f.frame := by
  simp [attached]

@[simp] theorem database_attached (f : Forest) (id : ParticleId) (d : DecayId)
    (products : List ParticleId) : (f.attached id d products).database = f.database := by
  simp [attached]

theorem particle?_attached (f : Forest) (id : ParticleId) (d : DecayId)
    (products : List ParticleId) (x : ParticleId) :
    (f.attached id d products).particle? x = (f.particle? x).map fun X => { X with
      parent := if x ∈ products then some id else X.parent
      decays := if x = id then X.decays ++ [d] else X.decays } := by
  rw [attached, particle?_mapParticle, particle?_mapDecay, particle?_withParent,
    particle?_mapDecay, particle?_withParent]
  by_cases hx : x = id
  · subst hx
    simp [Function.comp_def]
  · simp [hx]

theorem decay?_attached (f : Forest) (id : ParticleId) (d : DecayId) (products : List ParticleId)
    (y : DecayId) :
    (f.attached id d products).decay? y =
      if y = d then (f.decay? d).map fun D => { D with parent := some id } else f.decay? y := by
  rw [attached, decay?_mapParticle, decay?_mapDecay, decay?_withParent, decay?_withParent]

/-- Attachment gives a parent to the products and leaves all other parents alone. -/
theorem parentOf_attached (hlive : ∀ q ∈ products, f.Free [] q) :
    (f.attached p d products).ParentOf x q ↔
      q ∈ products ∧ x = p ∨ q ∉ products ∧ f.ParentOf x q := by
  unfold ParentOf
  rw [particle?_attached]
  by_cases hq : q ∈ products
  · obtain ⟨Q, hQ, -⟩ := hlive q hq
    simp [hq, hQ, eq_comm]
  · rcases f.particle? q with _ | Q <;> simp [hq]

theorem Free.not_parentOf (h : f.Free [] q) : ¬ f.ParentOf x q := by
  obtain ⟨Q, hQ, hfree | hmem⟩ := h
  · exact (parent_eq_none_iff hQ).mp hfree x
  · cases hmem

/-- Parent links stay grounded where a particle becomes the parent of particles that had none and
are not above it. -/
private theorem grounded_attached (hf : Linked f) (hlive : ∀ q ∈ products, f.Free [] q)
    (hcycle : ∀ q ∈ products, ¬ f.Above q p) : WellFounded (f.attached p d products).ParentOf := by
  have hp : ∀ x, f.Above x p → Acc (f.attached p d products).ParentOf x := by
    intro x
    induction x using hf.grounded.induction with
    | _ x ih =>
      intro hx
      refine .intro x fun z hz => ?_
      rcases (parentOf_attached hlive).mp hz with ⟨hmem, -⟩ | ⟨-, hz⟩
      · exact (hcycle x hmem hx).elim
      · exact ih z hz (.head hz hx)
  refine ⟨fun x => ?_⟩
  induction x using hf.grounded.induction with
  | _ x ih =>
    refine .intro x fun z hz => ?_
    rcases (parentOf_attached hlive).mp hz with ⟨-, rfl⟩ | ⟨-, hz⟩
    · exact hp z .refl
    · exact ih z hz

theorem particle_of_attached (h : (f.attached p d products).particle? x = some X) :
    ∃ X₀, f.particle? x = some X₀ ∧
      X.decays = if x = p then X₀.decays ++ [d] else X₀.decays := by
  rw [particle?_attached] at h
  obtain ⟨X₀, hX₀, rfl⟩ := Option.map_eq_some_iff.mp h
  exact ⟨X₀, hX₀, rfl⟩

theorem decay?_attached_self (hd : f.decay? d = some D) :
    (f.attached p d products).decay? d = some { D with parent := some p } := by
  rw [decay?_attached, if_pos rfl, hd]
  rfl

theorem decay?_attached_of_ne (hy : y ≠ d) :
    (f.attached p d products).decay? y = f.decay? y := by
  rw [decay?_attached, if_neg hy]

/-- A decay with a parent was there before with that parent, or it is the one that was attached. -/
theorem decay_of_attached (hd : f.decay? d = some D)
    (hY : (f.attached p d products).decay? y = some Y) (hx : Y.parent = some x) :
    (y = d ∧ x = p ∧ Y.products = D.products) ∨ y ≠ d ∧ f.decay? y = some Y := by
  by_cases hy : y = d
  · subst hy
    cases (decay?_attached_self hd).symm.trans hY
    exact .inl ⟨rfl, (Option.some.inj hx).symm, rfl⟩
  · exact .inr ⟨hy, (decay?_attached_of_ne hy).symm.trans hY⟩

theorem Linked.not_mem_decays (hf : Linked f) (hd : f.decay? d = some D) (hnone : D.parent = none)
    (hX : f.particle? x = some X) : d ∉ X.decays := by
  intro hmem
  obtain ⟨D', hD', hpar⟩ := hf.listed hX hmem
  cases hd.symm.trans hD'
  cases hnone.symm.trans hpar

/-- A particle may take a decay that belongs to none, if the products are distinct, live and without
a parent, and none of them is the particle itself or above it. -/
theorem Linked.attached (hf : Linked f) (hp : f.particle? p = some P) (hd : f.decay? d = some D)
    (hnone : D.parent = none) (hnodup : D.products.Nodup)
    (hlive : ∀ q ∈ D.products, f.Free [] q) (hcycle : ∀ q ∈ D.products, ¬ f.Above q p) :
    Linked (f.attached p d D.products) := by
  -- A product of the new decay had no parent, so it is in no other decay that belongs to one.
  have honly : ∀ {y Y x q}, f.decay? y = some Y → Y.parent = some x → q ∈ Y.products →
      q ∉ D.products :=
    fun hY hx hq hmem => (hlive _ hmem).not_parentOf (hf.product hY hx hq)
  have hother : ∀ {y Y x}, f.decay? y = some Y → Y.parent = some x →
      (f.attached p d D.products).decay? y = some Y := by
    intro y Y x hY hx
    rw [decay?_attached_of_ne, hY]
    rintro rfl
    cases hd.symm.trans hY
    cases hnone.symm.trans hx
  constructor
  case listed =>
    intro x X y hX hy
    obtain ⟨X₀, hX₀, hdecays⟩ := particle_of_attached hX
    have hmem : y ∈ X₀.decays ∨ x = p ∧ y = d := by
      rw [hdecays] at hy
      split at hy
      · next hx =>
        rcases List.mem_append.mp hy with hy | hy
        · exact .inl hy
        · exact .inr ⟨hx, List.mem_singleton.mp hy⟩
      · exact .inl hy
    rcases hmem with hmem | ⟨rfl, rfl⟩
    · obtain ⟨Y, hY, hpar⟩ := hf.listed hX₀ hmem
      exact ⟨Y, hother hY hpar, hpar⟩
    · exact ⟨_, decay?_attached_self hd, rfl⟩
  case listedOnce =>
    intro x X hX
    obtain ⟨X₀, hX₀, hdecays⟩ := particle_of_attached hX
    rw [hdecays]
    split
    · exact List.nodup_append_comm.mp
        (List.nodup_cons.mpr ⟨hf.not_mem_decays hd hnone hX₀, hf.listedOnce hX₀⟩)
    · exact hf.listedOnce hX₀
  case owner =>
    intro y Y x hY hx
    rcases decay_of_attached hd hY hx with ⟨rfl, rfl, -⟩ | ⟨-, hY⟩
    · refine ⟨_, by rw [particle?_attached, hp]; rfl, ?_⟩
      simp
    · obtain ⟨X, hX, hmem⟩ := hf.owner hY hx
      refine ⟨_, by rw [particle?_attached, hX]; rfl, ?_⟩
      dsimp only
      split
      · exact List.mem_append_left _ hmem
      · exact hmem
  case product =>
    intro y Y x q hY hx hq
    rw [parentOf_attached hlive]
    rcases decay_of_attached hd hY hx with ⟨-, rfl, hprod⟩ | ⟨-, hY⟩
    · exact .inl ⟨hprod ▸ hq, rfl⟩
    · exact .inr ⟨honly hY hx hq, hf.product hY hx hq⟩
  case productOnce =>
    intro y Y x hY hx
    rcases decay_of_attached hd hY hx with ⟨-, -, hprod⟩ | ⟨-, hY⟩
    · exact hprod ▸ hnodup
    · exact hf.productOnce hY hx
  case origin =>
    intro x q hxq
    rcases (parentOf_attached hlive).mp hxq with ⟨hq, rfl⟩ | ⟨-, hxq⟩
    · exact ⟨d, _, decay?_attached_self hd, rfl, hq⟩
    · obtain ⟨y, Y, hY, hx, hq⟩ := hf.origin hxq
      exact ⟨y, Y, hother hY hx, hx, hq⟩
  case originOnce =>
    intro y y' Y Y' x x' q hY hY' hx hx' hq hq'
    rcases decay_of_attached hd hY hx with ⟨hy, -, hprod⟩ | ⟨-, hY⟩ <;>
      rcases decay_of_attached hd hY' hx' with ⟨hy', -, hprod'⟩ | ⟨-, hY'⟩
    · rw [hy, hy']
    · exact (honly hY' hx' hq' (hprod ▸ hq)).elim
    · exact (honly hY hx hq (hprod' ▸ hq')).elim
    · exact hf.originOnce hY hY' hx hx' hq hq'
  case grounded => exact grounded_attached hf hlive hcycle

/-! ### Release -/

namespace Released

variable {kept gone : List DecayId}

theorem parentOf_iff (h : Released f g p kept gone) :
    g.ParentOf x q ↔ q ∉ f.productsOf gone ∧ f.ParentOf x q := by
  unfold ParentOf
  rw [h.particle?]
  by_cases hq : q ∈ f.productsOf gone
  · rcases f.particle? q with _ | Q <;> simp [hq]
  · rcases f.particle? q with _ | Q <;> simp [hq]

theorem particle_of_some (h : Released f g p kept gone) (hX : g.particle? x = some X) :
    ∃ X₀, f.particle? x = some X₀ ∧ X.decays = if x = p then kept else X₀.decays := by
  rw [h.particle?] at hX
  obtain ⟨X₀, hX₀, rfl⟩ := Option.map_eq_some_iff.mp hX
  exact ⟨X₀, hX₀, rfl⟩

/-- The decays that still have a parent are those of before that were not given up. -/
theorem decay_of_parent (h : Released f g p kept gone) (hY : g.decay? y = some Y)
    (hx : Y.parent = some x) : y ∉ gone ∧ f.decay? y = some Y := by
  rw [h.decay?] at hY
  obtain ⟨Y₀, hY₀, rfl⟩ := Option.map_eq_some_iff.mp hY
  by_cases hy : y ∈ gone
  · simp [hy] at hx
  · exact ⟨hy, by simp [hy, hY₀]⟩

theorem decay_of_not_mem (h : Released f g p kept gone) (hy : y ∉ gone)
    (hY : f.decay? y = some Y) : g.decay? y = some Y := by
  rw [h.decay?, hY]
  simp [hy]

end Released

/-- A particle may give up any of its decays. -/
theorem Linked.released {kept gone : List DecayId} (hf : Linked f) (hp : f.particle? p = some P)
    (h : Released f g p kept gone) (hkept : kept.Nodup)
    (hdecays : ∀ d, d ∈ P.decays ↔ d ∈ kept ∨ d ∈ gone) (hdisjoint : ∀ d ∈ kept, d ∉ gone) :
    Linked g := by
  have hgone : ∀ {y Y x}, y ∈ gone → f.decay? y = some Y → Y.parent = some x → x = p := by
    intro y Y x hy hY hx
    obtain ⟨Y', hY', hp'⟩ := hf.listed hp ((hdecays y).mpr (.inr hy))
    cases hY.symm.trans hY'
    exact Option.some.inj (hx.symm.trans hp')
  constructor
  case listed =>
    intro x X y hX hy
    obtain ⟨X₀, hX₀, hXd⟩ := h.particle_of_some hX
    rw [hXd] at hy
    split at hy
    · next hx =>
      subst hx
      obtain ⟨Y, hY, hpar⟩ := hf.listed hp ((hdecays y).mpr (.inl hy))
      exact ⟨Y, h.decay_of_not_mem (hdisjoint y hy) hY, hpar⟩
    · next hx =>
      obtain ⟨Y, hY, hpar⟩ := hf.listed hX₀ hy
      exact ⟨Y, h.decay_of_not_mem (fun hmem => hx (hgone hmem hY hpar)) hY, hpar⟩
  case listedOnce =>
    intro x X hX
    obtain ⟨X₀, hX₀, hXd⟩ := h.particle_of_some hX
    rw [hXd]
    split
    · exact hkept
    · exact hf.listedOnce hX₀
  case owner =>
    intro y Y x hY hx
    obtain ⟨hy, hY⟩ := h.decay_of_parent hY hx
    obtain ⟨X, hX, hmem⟩ := hf.owner hY hx
    refine ⟨_, by rw [h.particle?, hX]; rfl, ?_⟩
    dsimp only
    split
    · next hxp =>
      subst hxp
      cases hX.symm.trans hp
      exact ((hdecays y).mp hmem).resolve_right hy
    · exact hmem
  case product =>
    intro y Y x q hY hx hq
    obtain ⟨hy, hY⟩ := h.decay_of_parent hY hx
    refine h.parentOf_iff.mpr ⟨fun hmem => ?_, hf.product hY hx hq⟩
    obtain ⟨z, hz, Z, hZ, hqZ⟩ := mem_productsOf.mp hmem
    obtain ⟨Z', hZ', hpar⟩ := hf.listed hp ((hdecays z).mpr (.inr hz))
    cases hZ.symm.trans hZ'
    cases hf.originOnce hY hZ hx hpar hq hqZ
    exact hy hz
  case productOnce =>
    intro y Y x hY hx
    exact hf.productOnce (h.decay_of_parent hY hx).2 hx
  case origin =>
    intro x q hxq
    obtain ⟨hq, hxq⟩ := h.parentOf_iff.mp hxq
    obtain ⟨y, Y, hY, hx, hqY⟩ := hf.origin hxq
    have hy : y ∉ gone := fun hy => hq (mem_productsOf.mpr ⟨y, hy, Y, hY, hqY⟩)
    exact ⟨y, Y, h.decay_of_not_mem hy hY, hx, hqY⟩
  case originOnce =>
    intro y y' Y Y' x x' q hY hY' hx hx'
    exact hf.originOnce (h.decay_of_parent hY hx).2 (h.decay_of_parent hY' hx').2 hx hx'
  case grounded => exact Subrelation.wf (fun hxq => (h.parentOf_iff.mp hxq).2) hf.grounded

end Forest

end DecayForest
