import DecayForest.Proofs.Forest.Attachment
import DecayForest.Proofs.Lists
/-!
# Edits of linked forests

What each edit of `Forest.Edit` makes of a forest: either it is refused and leaves the forest as it
was, or its checks hold and the forest changes as the edit says. All of them keep a forest linked.
-/

namespace DecayForest

namespace Forest

variable {f g : Forest} {p q x : ParticleId} {P : Particle} {d : DecayId} {D : Decay}
  {products freed : List ParticleId} {params : ParamList}

theorem particle?_detached (f : Forest) (d : DecayId) (products : List ParticleId)
    (x : ParticleId) :
    (f.detached d products).particle? x = (f.particle? x).map fun X => { X with
      parent := if x ∈ products then none else X.parent } := by
  rw [detached, particle?_mapDecay, particle?_withParent]

theorem decay?_detached (f : Forest) (d : DecayId) (products : List ParticleId) (y : DecayId) :
    (f.detached d products).decay? y =
      if y = d then (f.decay? d).map fun D => { D with parent := none } else f.decay? y := by
  rw [detached, decay?_mapDecay, decay?_withParent, decay?_withParent]

theorem decay_of_detached {y : DecayId} {Y : Decay} (hY : f.decay? y = some Y) (d : DecayId)
    (products : List ParticleId) :
    ∃ Y', (f.detached d products).decay? y = some Y' ∧ Y'.products = Y.products := by
  rw [decay?_detached]
  split
  · next hyd =>
    subst hyd
    exact ⟨{ Y with parent := none }, by rw [hY]; rfl, rfl⟩
  · exact ⟨Y, hY, rfl⟩

theorem productsOf_cons (hD : f.decay? d = some D) (ds : List DecayId) :
    f.productsOf (d :: ds) = D.products ++ f.productsOf ds := by
  rw [productsOf, List.flatMap_cons, hD]
  rfl

theorem productsOf_detached {ds : List DecayId} (hlive : ∀ y ∈ ds, ∃ Y, f.decay? y = some Y)
    (d : DecayId) (products : List ParticleId) :
    (f.detached d products).productsOf ds = f.productsOf ds := by
  refine congrArg List.flatten (List.map_congr_left fun y hy => ?_)
  obtain ⟨Y, hY⟩ := hlive y hy
  obtain ⟨Y', hY', hproducts⟩ := decay_of_detached hY d products
  rw [hY', hY, Option.map_some, Option.map_some, hproducts]

theorem Free.live (h : f.Free freed q) : (f.particle? q).isSome := by
  obtain ⟨Q, hQ, -⟩ := h
  rw [hQ]; rfl

/-- The checks before a new decay is given to a particle. -/
def checkAddition (f : Forest) (id : ParticleId) (products : List ParticleId) :
    Except ModelError Unit := do
  let _ ← f.particle id
  f.checkCycle id products
  f.checkProducts [] products

theorem checkAddition_eq_ok :
    f.checkAddition p products = .ok () ↔ (∃ P, f.particle? p = some P) ∧
      f.checkCycle p products = .ok () ∧ f.checkProducts [] products = .ok () := by
  unfold checkAddition
  rcases hp : f.particle? p with _ | P
  · rw [particle_of_none hp]
    exact iff_of_false nofun fun ⟨⟨_, h⟩, _⟩ => nomatch h
  · rw [particle_of_some hp]
    show (f.checkCycle p products >>= fun _ => f.checkProducts [] products) = _ ↔ _
    rcases f.checkCycle p products with e | ⟨⟩
    · exact iff_of_false nofun fun ⟨_, h, _⟩ => nomatch h
    · exact ⟨fun h => ⟨⟨P, rfl⟩, rfl, h⟩, fun h => h.2.2⟩

theorem checkAddition_error {e : ModelError} (hf : Linked f) (hp : f.particle? p = some P)
    (hlive : ∀ q ∈ products, ∃ Q, f.particle? q = some Q)
    (h : f.checkAddition p products = .error e) : e.isConsistency := by
  unfold checkAddition at h
  rw [particle_of_some hp] at h
  change (f.checkCycle p products >>= fun _ => f.checkProducts [] products) = _ at h
  by_cases hcycle : ∃ q ∈ products, f.Above q p
  · obtain ⟨n, hn⟩ := hf.checkCycle_error hcycle
    rw [hn] at h
    cases h
    rfl
  · have hok := (hf.checkCycle_eq_ok hp products).mpr fun q hq habove => hcycle ⟨q, hq, habove⟩
    rw [hok] at h
    exact checkProductsFrom_error hlive h

/-- A forest with a new decay of a particle. -/
def withDecay (f : Forest) (id : ParticleId) (products : List ParticleId) (params : ParamList) :
    Forest :=
  (f.plusDecay products params).attached id f.nextDecay products

theorem decay?_plusDecay_self (f : Forest) (products : List ParticleId) (params : ParamList) :
    (f.plusDecay products params).decay? f.nextDecay = some ⟨products, params, none, f.nextSerial⟩ := by
  rw [decay?_plusDecay, if_pos rfl]

/-- A new decay keeps a forest linked, if the products are distinct, live and without a parent, and
none of them is the particle itself or above it. -/
theorem Linked.withDecay (hf : Linked f) (hp : f.particle? p = some P) (hnodup : products.Nodup)
    (hfree : ∀ q ∈ products, f.Free [] q) (hcycle : ∀ q ∈ products, ¬ f.Above q p) :
    Linked (f.withDecay p products params) := by
  exact (hf.plusDecay products params).attached hp (f.decay?_plusDecay_self products params) rfl hnodup
    hfree hcycle

theorem Linked.withDecay_of_check (hf : Linked f) (h : f.checkAddition p products = .ok ()) :
    Linked (f.withDecay p products params) := by
  obtain ⟨⟨P, hP⟩, hcycle, hproducts⟩ := checkAddition_eq_ok.mp h
  obtain ⟨hnodup, hfree⟩ := (checkProducts_eq_ok [] products).mp hproducts
  exact hf.withDecay hP hnodup hfree ((hf.checkCycle_eq_ok hP products).mp hcycle)

theorem mapM_decay_eq_ok {ds : List DecayId} {Ds : List Decay} (h : ds.mapM f.decay = .ok Ds) :
    Ds.flatMap Decay.products = f.productsOf ds := by
  have hall := forall₂_of_mapM_eq_ok h
  clear h
  induction hall with
  | nil => rfl
  | @cons d D ds Ds hd _ ih =>
    rw [List.flatMap_cons, productsOf_cons (decay_eq_ok.mp hd), ih]

/-- What a replacement sets free: all decays of a live particle, and their products. -/
theorem Linked.replaceable_eq (hf : Linked f) (hp : f.particle? p = some P) :
    f.replaceable p = .ok (P.decays, f.productsOf P.decays) := by
  have hlive : ∀ d ∈ P.decays, ∃ D, f.decay d = .ok D := by
    intro d hd
    obtain ⟨D, hD, -⟩ := hf.listed hp hd
    exact ⟨D, decay_of_some hD⟩
  obtain ⟨Ds, hDs, -⟩ := mapM_eq_ok hlive
  unfold replaceable
  rw [particle_of_some hp]
  show (P.decays.mapM f.decay >>= fun Ds => pure (P.decays, Ds.flatMap Decay.products)) = _
  rw [hDs, ← mapM_decay_eq_ok hDs]
  rfl

theorem replaceable_eq_ok {ds : List DecayId} (h : f.replaceable p = .ok (ds, freed)) :
    ∃ P, f.particle? p = some P ∧ ds = P.decays ∧ freed = f.productsOf ds := by
  unfold replaceable at h
  rcases hp : f.particle? p with _ | P
  · rw [particle_of_none hp] at h; cases h
  · rw [particle_of_some hp] at h
    change (P.decays.mapM f.decay >>= fun Ds => _) = _ at h
    rcases hds : P.decays.mapM f.decay with e | Ds
    · rw [hds] at h; cases h
    · rw [hds] at h
      cases h
      exact ⟨P, rfl, rfl, mapM_decay_eq_ok hds⟩

end Forest

namespace Edit

open Forest

variable {f g : Forest} {p : ParticleId} {P : Particle} {d : DecayId} {D : Decay}
  {products : List ParticleId} {params : ParamList}

theorem on_attach (hd : f.decay? d = some D) (hp : f.particle? p = some P)
    (hlive : ∀ q ∈ D.products, (f.particle? q).isSome) :
    (attach p d).on f = (.ok (), f.attached p d D.products) := by
  unfold attach
  rw [on_bind_of_ok (on_ask_decay hd), on_bind_of_ok (on_forM_parent _ _ hlive)]
  have hd' : (f.withParent (some p) D.products).decay? d = some D := by
    rw [decay?_withParent, hd]
  obtain ⟨P', hP'⟩ : ∃ P', ((f.withParent (some p) D.products).mapDecay d
      fun D => { D with parent := some p }).particle? p = some P' := by
    rw [particle?_mapDecay, particle?_withParent, hp]
    exact ⟨_, rfl⟩
  rw [on_bind_of_ok (on_modifyDecay hd' _), on_modifyParticle hP']
  rfl

/-- A dead particle gets no decay, though the decay and its products get it as their parent. -/
theorem on_attach_dead (hd : f.decay? d = some D) (hp : f.particle? p = none)
    (hlive : ∀ q ∈ D.products, (f.particle? q).isSome) :
    (attach p d).on f = (.error (.deadParticle p), f.attached p d D.products) := by
  unfold attach
  rw [on_bind_of_ok (on_ask_decay hd), on_bind_of_ok (on_forM_parent _ _ hlive)]
  have hd' : (f.withParent (some p) D.products).decay? d = some D := by
    rw [decay?_withParent, hd]
  have hp' : ((f.withParent (some p) D.products).mapDecay d
      fun D => { D with parent := some p }).particle? p = none := by
    rw [particle?_mapDecay, particle?_withParent, hp]
    rfl
  rw [on_bind_of_ok (on_modifyDecay hd' _), on_modifyParticle_dead hp', attached,
    mapParticle_of_none hp']

theorem on_detach (hd : f.decay? d = some D) (hlive : ∀ q ∈ D.products, (f.particle? q).isSome) :
    (detach d).on f = (.ok (), f.detached d D.products) := by
  unfold detach
  rw [on_bind_of_ok (on_ask_decay hd), on_bind_of_ok (on_forM_parent _ _ hlive)]
  have hd' : (f.withParent none D.products).decay? d = some D := by
    rw [decay?_withParent, hd]
  rw [on_modifyDecay hd']
  rfl

/-- A new decay without a parent is refused, with the forest as it was, or added. -/
theorem on_addFreeDecay (products : List ParticleId) (params : ParamList) (f : Forest) :
    (addFreeDecay products params).on f =
      match f.checkProducts [] products with
      | .ok () => (.ok f.nextDecay, f.plusDecay products params)
      | .error e => (.error e, f) := by
  unfold addFreeDecay
  rcases h : f.checkProducts [] products with e | ⟨⟩
  · exact on_bind_of_error (by rw [on_ask, h])
  · rw [on_bind_of_ok (a := ()) (g := f) (by rw [on_ask, h])]
    rfl

/-- A new decay is attached after its products are checked. -/
theorem on_attach_new (hp : f.particle? p = some P)
    (hproducts : f.checkProducts [] products = .ok ()) (params : ParamList) :
    (attach p f.nextDecay).on (f.plusDecay products params) =
      (.ok (), f.withDecay p products params) := by
  obtain ⟨-, hfree⟩ := (checkProducts_eq_ok [] products).mp hproducts
  exact on_attach (f.decay?_plusDecay_self products params) hp fun q hq => (hfree q hq).live

theorem on_attach_new_dead (hp : f.particle? p = none)
    (hproducts : f.checkProducts [] products = .ok ()) (params : ParamList) :
    (attach p f.nextDecay).on (f.plusDecay products params) =
      (.error (.deadParticle p), f.withDecay p products params) := by
  obtain ⟨-, hfree⟩ := (checkProducts_eq_ok [] products).mp hproducts
  exact on_attach_dead (f.decay?_plusDecay_self products params) hp fun q hq => (hfree q hq).live

/-- A new decay of a particle is refused, with the forest as it was, or added. -/
theorem on_addDecay (p : ParticleId) (products : List ParticleId) (params : ParamList)
    (f : Forest) :
    (addDecay p products params).on f =
      match f.checkAddition p products with
      | .ok () => (.ok f.nextDecay, f.withDecay p products params)
      | .error e => (.error e, f) := by
  unfold addDecay checkAddition
  rcases hp : f.particle? p with _ | P
  · rw [particle_of_none hp]
    exact on_bind_of_error (on_ask_particle_dead hp)
  rw [on_bind_of_ok (on_ask_particle hp), particle_of_some hp]
  show _ = match f.checkCycle p products >>= fun _ => f.checkProducts [] products with
    | .ok () => _ | .error e => _
  rcases hc : f.checkCycle p products with e | ⟨⟩
  · exact on_bind_of_error (by rw [on_ask, hc])
  rw [on_bind_of_ok (a := ()) (g := f) (by rw [on_ask, hc])]
  show _ = match f.checkProducts [] products with | .ok () => _ | .error e => _
  have hadd := on_addFreeDecay products params f
  rcases hq : f.checkProducts [] products with e | ⟨⟩ <;> rw [hq] at hadd
  · exact on_bind_of_error hadd
  · rw [on_bind_of_ok hadd, on_bind_of_ok (on_attach_new hp hq params)]
    rfl

theorem on_adoptDecay (hp : f.particle? p = some P) (hd : f.decay? d = some D)
    (hnone : D.parent = none) (hproducts : f.checkProducts [] D.products = .ok ())
    (hcycle : f.checkCycle p D.products = .ok ()) (params : ParamList) :
    (adoptDecay p d params).on f =
      (.ok d, (f.mapDecay d fun D => { D with params := D.params.overlay params }).attached p d
        D.products) := by
  have hd' : (f.mapDecay d fun D => { D with params := D.params.overlay params }).decay? d =
      some { D with params := D.params.overlay params } := by
    rw [decay?_mapDecay, if_pos rfl, hd]; rfl
  obtain ⟨-, hfree⟩ := (checkProducts_eq_ok [] D.products).mp hproducts
  unfold adoptDecay
  rw [on_bind_of_ok (on_ask_particle hp), on_bind_of_ok (on_ask_decay hd), hnone]
  refine (on_bind_of_ok (a := ()) (g := f) (by rw [on_ask, hproducts])).trans ?_
  rw [on_bind_of_ok (a := ()) (g := f) (by rw [on_ask, hcycle]),
    on_bind_of_ok (on_modifyDecay hd _)]
  rw [on_bind_of_ok (on_attach hd' (by rw [particle?_mapDecay, hp])
    fun q hq => by rw [particle?_mapDecay]; exact (hfree q hq).live)]
  rfl

theorem atomic_addFreeDecay : (addFreeDecay products params).Atomic f := by
  have h := on_addFreeDecay products params f
  split at h
  · exact .of_ok h
  · exact .of_error h

theorem atomic_addDecay : (addDecay p products params).Atomic f := by
  have h := on_addDecay p products params f
  split at h
  · exact .of_ok h
  · exact .of_error h

/-- The adoption of a decay is refused, with the forest as it was, or done. -/
theorem adoptDecay_cases (p : ParticleId) (d : DecayId) (params : ParamList) (f : Forest) :
    (∃ e, (adoptDecay p d params).on f = (.error e, f)) ∨
      ∃ P D, f.particle? p = some P ∧ f.decay? d = some D ∧ D.parent = none ∧
        f.checkProducts [] D.products = .ok () ∧ f.checkCycle p D.products = .ok () := by
  unfold adoptDecay
  rcases hp : f.particle? p with _ | P
  · exact .inl ⟨_, on_bind_of_error (on_ask_particle_dead hp)⟩
  rw [on_bind_of_ok (on_ask_particle hp)]
  rcases hd : f.decay? d with _ | D
  · exact .inl ⟨_, on_bind_of_error (on_ask_decay_dead hd)⟩
  rw [on_bind_of_ok (on_ask_decay hd)]
  rcases hpar : D.parent with _ | owner
  · rcases hq : f.checkProducts [] D.products with e | ⟨⟩
    · exact .inl ⟨e, on_bind_of_error (by rw [on_ask, hq])⟩
    rcases hc : f.checkCycle p D.products with e | ⟨⟩
    · refine .inl ⟨e, ?_⟩
      refine (on_bind_of_ok (a := ()) (g := f) (by rw [on_ask, hq])).trans ?_
      exact on_bind_of_error (by rw [on_ask, hc])
    exact .inr ⟨P, D, rfl, rfl, hpar, hq, hc⟩
  · exact .inl ⟨_, rfl⟩

theorem atomic_adoptDecay : (adoptDecay p d params).Atomic f := by
  rcases adoptDecay_cases p d params f with ⟨e, h⟩ | ⟨P, D, hP, hD, hnone, hq, hc⟩
  · exact .of_error h
  · exact .of_ok (on_adoptDecay hP hD hnone hq hc params)

theorem on_forM_detach (ds : List DecayId) (hlive : ∀ d ∈ ds, ∃ D, f.decay? d = some D ∧
      ∀ q ∈ D.products, (f.particle? q).isSome) :
    ∃ g, (ds.forM detach).on f = (.ok (), g) ∧ g.frame = f.frame ∧
      g.database = f.database ∧
      (∀ x, g.particle? x = (f.particle? x).map fun X => { X with
        parent := if x ∈ f.productsOf ds then none else X.parent }) ∧
      ∀ y, g.decay? y = (f.decay? y).map fun Y => { Y with
        parent := if y ∈ ds then none else Y.parent } := by
  induction ds generalizing f with
  | nil => exact ⟨f, rfl, rfl, rfl, by simp [productsOf], by simp⟩
  | cons d ds ih =>
    obtain ⟨D, hD, hproducts⟩ := hlive d List.mem_cons_self
    have hlive' : ∀ y ∈ ds, ∃ Y, (f.detached d D.products).decay? y = some Y ∧
        ∀ q ∈ Y.products, ((f.detached d D.products).particle? q).isSome := by
      intro y hy
      obtain ⟨Y, hY, hq⟩ := hlive y (List.mem_cons_of_mem d hy)
      obtain ⟨Y', hY', hsame⟩ := decay_of_detached hY d D.products
      simp only [particle?_detached, Option.isSome_map]
      exact ⟨Y', hY', hsame ▸ hq⟩
    obtain ⟨g, hrun, hframe, hdatabase, hparticle, hdecay⟩ := ih hlive'
    have hproductsOf : (f.detached d D.products).productsOf ds = f.productsOf ds := by
      refine productsOf_detached (fun y hy => ?_) d D.products
      obtain ⟨Y, hY, -⟩ := hlive y (List.mem_cons_of_mem d hy)
      exact ⟨Y, hY⟩
    refine ⟨g, (on_bind_of_ok (on_detach hD hproducts)).trans hrun, ?_, ?_, fun x => ?_,
      fun y => ?_⟩
    · rw [hframe, detached, frame_mapDecay, frame_withParent]
    · rw [hdatabase, detached, database_mapDecay, database_withParent]
    · rw [hparticle, particle?_detached, hproductsOf, productsOf_cons hD, Option.map_map]
      refine congrArg (Option.map · _) (funext fun X => ?_)
      by_cases h : x ∈ D.products <;> simp [h]
    · rw [hdecay, decay?_detached]
      by_cases hy : y = d
      · subst hy
        rw [if_pos rfl, Option.map_map]
        exact congrArg (Option.map · _) (funext fun Y => by simp)
      · simp [hy]

/-- A particle gives up some of its decays. -/
theorem on_release (kept gone : List DecayId) (hf : Linked f) (hp : f.particle? p = some P)
    (hgone : ∀ d ∈ gone, d ∈ P.decays) :
    ∃ g, (gone.forM detach).on (f.mapParticle p fun X => { X with decays := kept }) = (.ok (), g) ∧
      Released f g p kept gone := by
  obtain ⟨g, hrun, hframe, hdatabase, hparticle, hdecay⟩ :=
    on_forM_detach (f := f.mapParticle p fun X => { X with decays := kept }) gone <| by
      intro d hd
      obtain ⟨D, hD, hpar⟩ := hf.listed hp (hgone d hd)
      refine ⟨D, by rw [decay?_mapParticle, hD], fun q hq => ?_⟩
      obtain ⟨Q, hQ⟩ := (hf.product hD hpar hq).live
      rw [particle?_mapParticle]
      split
      · rw [hp]; rfl
      · rw [hQ]; rfl
  have hproductsOf : (f.mapParticle p fun X => { X with decays := kept }).productsOf gone =
      f.productsOf gone := by
    simp only [productsOf, decay?_mapParticle]
  refine ⟨g, hrun, by rw [hframe, frame_mapParticle], by rw [hdatabase, database_mapParticle],
    fun x => ?_, fun y => by rw [hdecay, decay?_mapParticle]⟩
  rw [hparticle, hproductsOf, particle?_mapParticle]
  by_cases hx : x = p
  · subst hx
    rw [if_pos rfl, Option.map_map]
    exact congrArg (Option.map · _) (funext fun X => by simp)
  · simp [hx]

theorem on_clearDecays (hf : Linked f) (hp : f.particle? p = some P) :
    ∃ g, (clearDecays p P.decays).on f = (.ok (), g) ∧ Released f g p [] P.decays := by
  obtain ⟨g, hrun, hg⟩ := on_release [] P.decays hf hp fun _ h => h
  exact ⟨g, (on_bind_of_ok (on_modifyParticle hp _)).trans hrun, hg⟩

/-- A particle gives up one of its decays. -/
theorem on_removeDecay (hf : Linked f) (hp : f.particle? p = some P) (hd : d ∈ P.decays) :
    ∃ g, (removeDecay p d).on f = (.ok (), g) ∧ Released f g p (P.decays.erase d) [d] := by
  obtain ⟨g, hrun, hg⟩ := on_release (P.decays.erase d) [d] hf hp
    fun y hy => List.mem_singleton.mp hy ▸ hd
  have hmap : f.mapParticle p (fun X => { X with decays := X.decays.erase d }) =
      f.mapParticle p fun X => { X with decays := P.decays.erase d } :=
    mapParticle_congr hp rfl
  have hdetach : (detach d).on (f.mapParticle p fun X => { X with decays := P.decays.erase d }) =
      (.ok (), g) := by
    rw [← hrun]
    show _ = (detach d >>= fun _ => pure ()).on _
    rw [bind_pure_unit]
  refine ⟨g, ?_, hg⟩
  unfold removeDecay
  rw [on_bind_of_ok (on_ask_particle hp), if_pos (List.contains_iff_mem.mpr hd)]
  dsimp only
  rw [on_bind_of_ok (on_modifyParticle hp _), hmap, hdetach]

/-- The removal of a decay is refused, with the forest as it was, or done. -/
theorem removeDecay_cases (hf : Linked f) (p : ParticleId) (d : DecayId) :
    (∃ e, (removeDecay p d).on f = (.error e, f)) ∨
      ∃ P g, f.particle? p = some P ∧ d ∈ P.decays ∧ (removeDecay p d).on f = (.ok (), g) ∧
        Released f g p (P.decays.erase d) [d] := by
  rcases hp : f.particle? p with _ | P
  · exact .inl ⟨_, on_bind_of_error (on_ask_particle_dead hp)⟩
  by_cases hd : d ∈ P.decays
  · obtain ⟨g, hrun, hg⟩ := on_removeDecay hf hp hd
    exact .inr ⟨P, g, rfl, hd, hrun, hg⟩
  · unfold removeDecay
    rw [on_bind_of_ok (on_ask_particle hp), if_neg (by simpa using hd)]
    exact .inl ⟨_, on_bind_of_error (on_throw ..)⟩

end Edit

namespace Forest

open Edit

variable {f g : Forest} {p : ParticleId} {P : Particle} {d : DecayId}

theorem Linked.cleared (hf : Linked f) (hp : f.particle? p = some P)
    (h : Released f g p [] P.decays) : Linked g :=
  hf.released hp h List.nodup_nil (by simp) (by simp)

theorem Linked.removed (hf : Linked f) (hp : f.particle? p = some P) (hd : d ∈ P.decays)
    (h : Released f g p (P.decays.erase d) [d]) : Linked g := by
  have hnodup := hf.listedOnce hp
  refine hf.released hp h (hnodup.erase d) (fun y => ?_) fun y hy => ?_
  · rw [hnodup.mem_erase_iff, List.mem_singleton]
    constructor
    · intro hy
      by_cases hyd : y = d
      · exact .inr hyd
      · exact .inl ⟨hyd, hy⟩
    · rintro (⟨-, hy⟩ | rfl)
      · exact hy
      · exact hd
  · rw [List.mem_singleton]
    exact (hnodup.mem_erase_iff.mp hy).1

end Forest

/-! ### Edits keep a forest linked -/

namespace Edit

open Forest

theorem keeps_modifyParticle {change : Particle → Particle} (h : ∀ p, (change p).links = p.links)
    (id : ParticleId) : Keeps Linked (modifyParticle id change) := by
  intro f hf
  rcases hp : f.particle? id with _ | p
  · rw [on_modifyParticle_dead hp]; exact hf
  · rw [on_modifyParticle hp]; exact hf.mapParticle h id

theorem keeps_modifyDecay {change : Decay → Decay} (h : ∀ d, (change d).links = d.links)
    (id : DecayId) : Keeps Linked (modifyDecay id change) := by
  intro f hf
  rcases hd : f.decay? id with _ | d
  · rw [on_modifyDecay_dead hd]; exact hf
  · rw [on_modifyDecay hd]; exact hf.mapDecay h id

theorem keeps_addParticle (type : String) (params : ParamList) :
    Keeps Linked (addParticle type params) :=
  fun _ hf => hf.plusParticle type params

theorem keeps_addFreeDecay (products : List ParticleId) (params : ParamList) :
    Keeps Linked (addFreeDecay products params) := by
  intro f hf
  rw [on_addFreeDecay]
  split
  · exact hf.plusDecay products params
  · exact hf

theorem keeps_addDecay (p : ParticleId) (products : List ParticleId) (params : ParamList) :
    Keeps Linked (addDecay p products params) := by
  intro f hf
  rw [on_addDecay]
  split
  · next h => exact hf.withDecay_of_check h
  · exact hf

theorem keeps_adoptDecay (p : ParticleId) (d : DecayId) (params : ParamList) :
    Keeps Linked (adoptDecay p d params) := by
  intro f hf
  rcases adoptDecay_cases p d params f with ⟨e, h⟩ | ⟨P, D, hP, hD, hnone, hq, hc⟩
  · rw [h]
    exact hf
  rw [on_adoptDecay hP hD hnone hq hc]
  obtain ⟨hnodup, hfree⟩ := (checkProducts_eq_ok [] D.products).mp hq
  have hcycle := (hf.checkCycle_eq_ok hP D.products).mp hc
  let change : Decay → Decay := fun D => { D with params := D.params.overlay params }
  have hparent : (f.mapDecay d change).ParentOf = f.ParentOf := by
    funext a b
    unfold ParentOf
    rw [particle?_mapDecay]
  have hD' : (f.mapDecay d change).decay? d = some (change D) := by
    rw [decay?_mapDecay, if_pos rfl, hD]; rfl
  have hf' : Linked (f.mapDecay d change) := hf.mapDecay (by exact fun _ => rfl) d
  refine hf'.attached (D := change D) (by rw [particle?_mapDecay, hP]) hD' hnone hnodup
    (fun q hq => ?_) ?_
  · obtain ⟨Q, hQ, hnone⟩ := hfree q hq
    exact ⟨Q, by rw [particle?_mapDecay, hQ], hnone⟩
  · unfold Above
    rw [hparent]
    exact hcycle

theorem keeps_removeDecay (p : ParticleId) (d : DecayId) : Keeps Linked (removeDecay p d) := by
  intro f hf
  rcases removeDecay_cases hf p d with ⟨e, h⟩ | ⟨P, g, hP, hd, h, hg⟩ <;> rw [h]
  · exact hf
  · exact hf.removed hP hd hg

/-- A replacement of all decays keeps a forest linked, whatever the last step is. -/
private theorem keeps_replacement {α : Type} {p : ParticleId} {freed : List ParticleId}
    {ds : List DecayId} {f : Forest} (hf : Linked f) (h : f.replaceable p = .ok (ds, freed))
    (products : List ParticleId) {last : Edit α} (hlast : Keeps Linked last) :
    Linked ((do
      ask (·.checkReplacement p freed products)
      clearDecays p ds
      last : Edit α).on f).2 := by
  obtain ⟨P, hP, rfl, -⟩ := replaceable_eq_ok h
  rcases hc : f.checkReplacement p freed products with e | ⟨⟩
  · rw [on_bind_of_error (e := e) (g := f) (by rw [on_ask, hc])]
    exact hf
  rw [on_bind_of_ok (a := ()) (g := f) (by rw [on_ask, hc])]
  obtain ⟨g, hrun, hg⟩ := on_clearDecays hf hP
  rw [on_bind_of_ok hrun]
  exact hlast g (hf.cleared hP hg)

theorem keeps_setDecay (p : ParticleId) (products : List ParticleId) (params : ParamList) :
    Keeps Linked (setDecay p products params) := by
  intro f hf
  unfold setDecay
  rcases h : f.replaceable p with e | ⟨ds, freed⟩
  · rw [on_bind_of_error (e := e) (g := f) (by rw [on_ask, h])]
    exact hf
  · rw [on_bind_of_ok (a := (ds, freed)) (g := f) (by rw [on_ask, h])]
    exact keeps_replacement hf h products (keeps_addDecay p products params)

theorem keeps_adoptOnly (p : ParticleId) (d : DecayId) (params : ParamList) :
    Keeps Linked (adoptOnly p d params) := by
  intro f hf
  unfold adoptOnly
  rcases h : f.replaceable p with e | ⟨ds, freed⟩
  · rw [on_bind_of_error (e := e) (g := f) (by rw [on_ask, h])]
    exact hf
  rw [on_bind_of_ok (a := (ds, freed)) (g := f) (by rw [on_ask, h])]
  dsimp only
  rcases hd : f.decay? d with _ | D
  · rw [on_bind_of_error (on_ask_decay_dead hd)]
    exact hf
  rw [on_bind_of_ok (on_ask_decay hd)]
  have hrest := keeps_replacement hf h D.products (keeps_adoptDecay p d params)
  rcases hpar : D.parent with _ | owner
  · exact hrest
  · by_cases hmem : ds.contains d
    · simpa [List.contains_iff_mem.mp hmem] using hrest
    · dsimp only
      rw [if_neg hmem]
      exact hf

end Edit

end DecayForest
