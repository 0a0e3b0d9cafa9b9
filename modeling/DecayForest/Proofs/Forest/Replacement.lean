import DecayForest.Proofs.Forest.Reachability
/-!
# Replacement of decays

A replacement checks everything before it takes the first decay away, on the forest as it still is,
where the products of the old decays only count as free. `Offer.add` checks once more, in the forest
that is left. The two agree on every argument (`Linked.checkAddition_cleared`), so a replacement does
what the removals and the addition do one after another, and it changes nothing where it fails.
-/

namespace DecayForest

/-- What a particle is offered as its decay: a new one into some products, or one that is there. -/
inductive Offer where
  | products (products : List ParticleId)
  | decay (decay : DecayId)

namespace Offer

/-- The decay joins the others of a particle. -/
def add (p : ParticleId) (params : ParamList) : Offer → Edit DecayId
  | products qs => Forest.addDecay p qs params
  | decay d => Forest.adoptDecay p d params

/-- The decay takes the place of all others of a particle. -/
def replace (p : ParticleId) (params : ParamList) : Offer → Edit DecayId
  | products qs => Forest.setDecay p qs params
  | decay d => Forest.adoptOnly p d params

end Offer

namespace Forest

variable {f g h : Forest} {p q : ParticleId} {P : Particle} {d : DecayId} {D : Decay}
  {kept gone kept' gone' : List DecayId}

/-! ### Releases one after another -/

namespace Released

theorem unique (hg : Released f g p kept gone) (hh : Released f h p kept gone) : g = h :=
  eq_of_views (hg.frame.trans hh.frame.symm) (hg.database.trans hh.database.symm)
    (fun x => (hg.particle? x).trans (hh.particle? x).symm)
    fun y => (hg.decay? y).trans (hh.decay? y).symm

theorem refl (hp : f.particle? p = some P) : Released f f p P.decays [] where
  frame := rfl
  database := rfl
  particle? x := by
    by_cases hx : x = p
    · subst hx
      simp [hp, productsOf]
    · simp [hx, productsOf]
  decay? y := by simp

/-- A released decay keeps its products. -/
theorem productsOf_eq (hg : Released f g p kept gone) (ds : List DecayId) :
    g.productsOf ds = f.productsOf ds := by
  refine congrArg List.flatten (List.map_congr_left fun y _ => ?_)
  rw [hg.decay?, Option.map_map]
  rfl

theorem trans (hg : Released f g p kept gone) (hh : Released g h p kept' gone') :
    Released f h p kept' (gone ++ gone') where
  frame := hh.frame.trans hg.frame
  database := hh.database.trans hg.database
  particle? x := by
    have happend : f.productsOf (gone ++ gone') = f.productsOf gone ++ f.productsOf gone' :=
      List.flatMap_append
    rw [hh.particle?, hg.particle?, hg.productsOf_eq, Option.map_map, happend]
    refine congrArg (Option.map · _) (funext fun X => ?_)
    have hparent : (if x ∈ f.productsOf gone' then none
        else if x ∈ f.productsOf gone then none else X.parent) =
        if x ∈ f.productsOf gone ++ f.productsOf gone' then none else X.parent := by
      by_cases hx : x ∈ f.productsOf gone <;> simp [hx]
    have hdecays : (if x = p then kept' else if x = p then kept else X.decays) =
        if x = p then kept' else X.decays := by
      split <;> rfl
    dsimp only [Function.comp_apply]
    rw [hparent, hdecays]
  decay? y := by
    rw [hh.decay?, hg.decay?, Option.map_map]
    refine congrArg (Option.map · _) (funext fun Y => ?_)
    by_cases hy : y ∈ gone <;> simp [hy]

theorem free_iff (hg : Released f g p kept gone) :
    g.Free [] q ↔ f.Free (f.productsOf gone) q := by
  unfold Free
  rw [hg.particle?]
  rcases f.particle? q with _ | Q
  · simp
  · by_cases hq : q ∈ f.productsOf gone <;> simp [hq]

end Released

/-- The removals of all decays of a particle take away what a replacement takes away at once. -/
theorem Linked.on_forM_removeDecay (hf : Linked f) (hp : f.particle? p = some P) :
    ∃ g, (P.decays.forM (removeDecay p)).on f = (.ok (), g) ∧ Released f g p [] P.decays := by
  induction hds : P.decays generalizing f P with
  | nil => exact ⟨f, rfl, hds ▸ .refl hp⟩
  | cons d ds ih =>
    have hd : d ∈ P.decays := hds ▸ List.mem_cons_self
    obtain ⟨g, hrun, hg⟩ := Edit.on_removeDecay hf hp hd
    have hlinked := hf.removed hp hd hg
    rw [hds, List.erase_cons_head] at hg
    have hp' := hg.particle? p
    rw [hp, Option.map_some] at hp'
    obtain ⟨h, hruns, hh⟩ := ih hlinked hp' (if_pos rfl)
    exact ⟨h, (Edit.on_bind_of_ok hrun).trans hruns, hg.trans hh⟩

/-! ### The checks before and after -/

/-- What stands above a particle stays there when the particle gives up decays: the links that it
loses are below it. -/
theorem Linked.above_released (hf : Linked f) (hp : f.particle? p = some P)
    (hg : Released f g p kept gone) (hgone : ∀ d ∈ gone, d ∈ P.decays) :
    g.Above q p ↔ f.Above q p := by
  constructor
  · exact Relation.ReflTransGen.mono (fun x y hxy => (hg.parentOf_iff.mp hxy).2) q p
  · intro hqp
    induction hqp using Relation.ReflTransGen.head_induction_on with
    | refl => exact .refl
    | @head x y hxy hyp ih =>
      refine .head (hg.parentOf_iff.mpr ⟨fun hy => ?_, hxy⟩) ih
      obtain ⟨d, hd, D, hD, hyD⟩ := mem_productsOf.mp hy
      obtain ⟨D', hD', hpar⟩ := hf.listed hp (hgone d hd)
      cases hD.symm.trans hD'
      exact hf.not_above_of_parentOf (hf.product hD hpar hyD) hyp

theorem checkReplacement_eq_ok {freed products : List ParticleId} :
    f.checkReplacement p freed products = .ok () ↔
      f.checkProducts freed products = .ok () ∧ f.checkCycle p products = .ok () := by
  unfold checkReplacement
  rcases f.checkProducts freed products with e | ⟨⟩
  · exact iff_of_false nofun nofun
  · exact ⟨fun h => ⟨rfl, h⟩, fun h => h.2⟩

/-- The check before the old decays go accepts what the checks after that accept. -/
theorem Linked.checkAddition_cleared (hf : Linked f) (hp : f.particle? p = some P)
    (hg : Released f g p [] P.decays) (products : List ParticleId) :
    g.checkAddition p products = .ok () ↔
      f.checkReplacement p (f.productsOf P.decays) products = .ok () := by
  have hp' := hg.particle? p
  rw [hp, Option.map_some] at hp'
  rw [checkAddition_eq_ok, checkReplacement_eq_ok, checkProducts_eq_ok, checkProducts_eq_ok,
    (hf.cleared hp hg).checkCycle_eq_ok hp', hf.checkCycle_eq_ok hp]
  simp only [hg.free_iff, hf.above_released hp hg fun _ hd => hd]
  constructor
  · exact fun ⟨_, hcycle, hproducts⟩ => ⟨hproducts, hcycle⟩
  · exact fun ⟨hproducts, hcycle⟩ => ⟨⟨_, hp'⟩, hcycle, hproducts⟩

end Forest

/-! ### Replacement and addition -/

namespace Offer

open Forest Edit

variable {f g h : Forest} {p : ParticleId} {P : Particle} {d : DecayId} {params : ParamList}

/-- Two edits end alike, the first on `f` and the second on `g`: both succeed with the same answer
and leave the same forest, or both fail. The first leaves its forest alone where it fails. -/
def Agree (x y : Edit DecayId) (f g : Forest) : Prop :=
  (∃ d h, x.on f = (.ok d, h) ∧ y.on g = (.ok d, h)) ∨
    ∃ e e', x.on f = (.error e, f) ∧ y.on g = (.error e', g)

/-- A replacement and an addition end alike where they check the same products and nothing else. -/
private theorem agree_of_check {x y : Edit DecayId} (products : List ParticleId)
    (hf : Linked f) (hp : f.particle? p = some P) (hg : Released f g p [] P.decays)
    (hx : x.on f = (do
      ask (·.checkReplacement p (f.productsOf P.decays) products)
      clearDecays p P.decays
      y : Edit DecayId).on f)
    (hok : g.checkAddition p products = .ok () → ∃ d h, y.on g = (.ok d, h))
    (herror : g.checkAddition p products ≠ .ok () → ∃ e, y.on g = (.error e, g)) :
    Agree x y f g := by
  rw [ne_eq, hf.checkAddition_cleared hp hg] at herror
  rw [hf.checkAddition_cleared hp hg] at hok
  unfold Agree
  rw [hx]
  rcases hc : f.checkReplacement p (f.productsOf P.decays) products with e | ⟨⟩
  · obtain ⟨e', hy⟩ := herror (by rw [hc]; exact nofun)
    exact .inr ⟨e, e', on_bind_of_error (by rw [on_ask, hc]), hy⟩
  · obtain ⟨d, h, hy⟩ := hok hc
    obtain ⟨g', hrun, hg'⟩ := on_clearDecays hf hp
    obtain rfl := hg'.unique hg
    refine .inl ⟨d, h, ?_, hy⟩
    rw [on_bind_of_ok (a := ()) (g := f) (by rw [on_ask, hc]), on_bind_of_ok hrun, hy]

private theorem on_ask_replaceable (hf : Linked f) (hp : f.particle? p = some P) :
    (ask (·.replaceable p)).on f = (.ok (P.decays, f.productsOf P.decays), f) := by
  rw [on_ask, hf.replaceable_eq hp]

private theorem agree_products (hf : Linked f) (hp : f.particle? p = some P)
    (hg : Released f g p [] P.decays) (qs : List ParticleId) :
    Agree (setDecay p qs params) (addDecay p qs params) f g := by
  have hadd := on_addDecay p qs params g
  refine agree_of_check qs hf hp hg ?_ (fun hc => ?_) fun hc => ?_
  · exact on_bind_of_ok (on_ask_replaceable hf hp)
  · rw [hc] at hadd
    exact ⟨_, _, hadd⟩
  · rcases hcheck : g.checkAddition p qs with e | ⟨⟩
    · rw [hcheck] at hadd
      exact ⟨e, hadd⟩
    · exact (hc hcheck).elim

private theorem agree_decay (hf : Linked f) (hp : f.particle? p = some P)
    (hg : Released f g p [] P.decays) (d : DecayId) :
    Agree (adoptOnly p d params) (adoptDecay p d params) f g := by
  have hadopt := adoptDecay_cases p d params g
  have hd' := hg.decay? d
  have hx : (adoptOnly p d params).on f = _ := on_bind_of_ok (on_ask_replaceable hf hp)
  dsimp only at hx
  rcases hd : f.decay? d with _ | D <;> rw [hd] at hd'
  · -- A handle that names nothing stays one.
    obtain ⟨e, he⟩ := hadopt.resolve_right fun ⟨_, _, _, h, _⟩ => nomatch hd'.symm.trans h
    exact .inr ⟨.deadDecay d, e, hx.trans (on_bind_of_error (on_ask_decay_dead hd)), he⟩
  rw [on_bind_of_ok (on_ask_decay hd)] at hx
  dsimp only [Option.map_some] at hd'
  by_cases howned : D.parent = none ∨ d ∈ P.decays
  · have hfree : (if d ∈ P.decays then none else D.parent) = none := by
      rcases howned with h | h <;> simp [h]
    refine agree_of_check D.products hf hp hg ?_ (fun hc => ?_) fun hc => ?_
    · rw [hx]
      rcases hpar : D.parent with _ | owner
      · rfl
      · have hmem : P.decays.contains d := List.contains_iff_mem.mpr
          (howned.resolve_left (by rw [hpar]; exact nofun))
        simp only [hmem, if_true]
    · obtain ⟨⟨P', hP'⟩, hcycle, hproducts⟩ := checkAddition_eq_ok.mp hc
      exact ⟨d, _, on_adoptDecay hP' hd' hfree hproducts hcycle params⟩
    · refine hadopt.resolve_right ?_
      rintro ⟨P', D', hP', hD', -, hproducts, hcycle⟩
      refine hc ?_
      cases hd'.symm.trans hD'
      exact checkAddition_eq_ok.mpr ⟨⟨P', hP'⟩, hcycle, hproducts⟩
  · -- The decay of another particle stays with it.
    obtain ⟨hpar, hmem⟩ := not_or.mp howned
    obtain ⟨owner, howner⟩ := Option.ne_none_iff_exists'.mp hpar
    have hrefused : ∃ e, (adoptDecay p d params).on g = (.error e, g) := by
      refine hadopt.resolve_right ?_
      rintro ⟨_, D', _, hD', hnone, -⟩
      cases hd'.symm.trans hD'
      exact hpar ((if_neg hmem).symm.trans hnone)
    obtain ⟨e, he⟩ := hrefused
    refine .inr ⟨.decayOwned (f.label owner), e, hx.trans ?_, he⟩
    rw [howner]
    dsimp only
    rw [if_neg (by simpa using hmem)]
    rfl

/-- A replacement ends as the addition does in the forest without the old decays. -/
theorem agree (hf : Linked f) (hp : f.particle? p = some P) (hg : Released f g p [] P.decays)
    (o : Offer) (params : ParamList) : Agree (o.replace p params) (o.add p params) f g := by
  cases o with
  | products qs => exact agree_products hf hp hg qs
  | decay d => exact agree_decay hf hp hg d

/-- Nothing is replaced on a dead particle. -/
theorem on_replace_dead (hp : f.particle? p = none) (o : Offer) (params : ParamList) :
    (o.replace p params).on f = (.error (.deadParticle p), f) := by
  have hask : (ask (·.replaceable p)).on f = (.error (.deadParticle p), f) := by
    rw [on_ask, replaceable, particle_of_none hp]
    rfl
  cases o <;> exact on_bind_of_error hask

/-! ### What a replacement does -/

/-- An added decay is the last of its particle, which is the parent of its products. All else is as
before. -/
theorem add_eq_ok {o : Offer} (hrun : (o.add p params).on g = (.ok d, h)) :
    ∃ D, h.decay? d = some D ∧ (∀ y, y ≠ d → h.decay? y = g.decay? y) ∧
      ∀ x, h.particle? x = (g.particle? x).map fun X => { X with
        parent := if x ∈ D.products then some p else X.parent
        decays := if x = p then X.decays ++ [d] else X.decays } := by
  cases o with
  | products qs =>
    change (addDecay p qs params).on g = _ at hrun
    rw [on_addDecay] at hrun
    split at hrun
    · cases hrun
      refine ⟨_, decay?_withDecay_self .., fun y hy => decay?_withDecay_of_ne _ _ _ _ hy, fun x => ?_⟩
      exact particle?_withDecay ..
    · cases hrun
  | decay d' =>
    change (adoptDecay p d' params).on g = _ at hrun
    rcases adoptDecay_cases p d' params g with ⟨e, he⟩ | ⟨P, D, hP, hD, hnone, hproducts, hcycle⟩
    · cases he.symm.trans hrun
    · cases (on_adoptDecay hP hD hnone hproducts hcycle params).symm.trans hrun
      have hD' : (g.mapDecay d fun D => { D with params := D.params.overlay params }).decay? d =
          some { D with params := D.params.overlay params } := by
        rw [decay?_mapDecay, if_pos rfl, hD]
        rfl
      refine ⟨_, decay?_attached_self hD', fun y hy => ?_, fun x => ?_⟩
      · rw [decay?_attached_of_ne hy, decay?_mapDecay, if_neg hy]
      · rw [particle?_attached, particle?_mapDecay]

end Offer

namespace Forest

open Edit

variable {f : Forest}

/-- A replacement of all decays of a particle is what it stands for. It succeeds where the particle
is live, its decays are removed one after another and the new one is added, with the same answer and
the same forest. Then the particle has that decay alone, the others stay, without a parent, and so
do those of their products that are not used again. Where a replacement fails, the forest is as it
was. -/
theorem Reachable.replace_atomic (h : Reachable f) (o : Offer) (p : ParticleId)
    (params : ParamList) :
    (∀ d g, (o.replace p params).on f = (.ok d, g) ↔ ∃ P, f.particle? p = some P ∧
      (do P.decays.forM (removeDecay p); o.add p params : Edit DecayId).on f = (.ok d, g)) ∧
    (∀ d g P, (o.replace p params).on f = (.ok d, g) → f.particle? p = some P →
      (∃ P', g.particle? p = some P' ∧ P'.decays = [d]) ∧
      (∀ y ∈ P.decays, y ≠ d →
        ∃ Y, f.decay? y = some Y ∧ g.decay? y = some { Y with parent := none }) ∧
      ∃ D, g.decay? d = some D ∧ ∀ q ∈ f.productsOf P.decays, q ∉ D.products →
        ∃ Q, g.particle? q = some Q ∧ Q.parent = none) ∧
    ∀ e g, (o.replace p params).on f = (.error e, g) → g = f := by
  have hf := h.linked
  rcases hp : f.particle? p with _ | P
  · have hdead := o.on_replace_dead hp params
    rw [hdead]
    refine ⟨fun d g => iff_of_false nofun nofun, nofun, fun e g hrun => ?_⟩
    cases hrun
    rfl
  obtain ⟨g₀, hremove, hg₀⟩ := hf.on_forM_removeDecay hp
  have hagree := o.agree hf hp hg₀ params
  have hiff : ∀ d g,
      (o.replace p params).on f = (.ok d, g) ↔ (o.add p params).on g₀ = (.ok d, g) := by
    intro d g
    rcases hagree with ⟨d', g', hx, hy⟩ | ⟨e, e', hx, hy⟩ <;> rw [hx, hy]
    exact iff_of_false nofun nofun
  refine ⟨fun d g => ?_, fun d g P' hrun hP' => ?_, fun e g hrun => ?_⟩
  · have hseq : (do P.decays.forM (removeDecay p); o.add p params : Edit DecayId).on f =
        (o.add p params).on g₀ := on_bind_of_ok hremove
    rw [hiff, ← hseq]
    constructor
    · exact fun hrun => ⟨P, rfl, hrun⟩
    · rintro ⟨_, ⟨⟩, hrun⟩
      exact hrun
  · cases hP'
    obtain ⟨D, hD, hothers, hparticles⟩ := Offer.add_eq_ok ((hiff d g).mp hrun)
    refine ⟨⟨_, by rw [hparticles, hg₀.particle?, hp]; rfl, by simp⟩, fun y hy hne => ?_, D, hD,
      fun q hq hnot => ?_⟩
    · obtain ⟨Y, hY, -⟩ := hf.listed hp hy
      exact ⟨Y, hY, by rw [hothers y hne, hg₀.decay?, hY]; simp [hy]⟩
    · obtain ⟨y, hy, Y, hY, hqY⟩ := mem_productsOf.mp hq
      obtain ⟨Y', hY', hpar⟩ := hf.listed hp hy
      cases hY.symm.trans hY'
      obtain ⟨Q, hQ⟩ := (hf.product hY hpar hqY).live
      exact ⟨_, by rw [hparticles, hg₀.particle?, hQ]; rfl, by simp [hq, hnot]⟩
  · rcases hagree with ⟨d', g', hx, -⟩ | ⟨e, e', hx, -⟩ <;> cases hx.symm.trans hrun
    rfl

/-- The product of the only decay is used again: the old decay stays behind without a parent. -/
theorem replace_atomic_copiedPair :
    ∃ g, ((Offer.products [⟨1, 0⟩]).replace ⟨0, 0⟩ ∅).on copiedPair = (.ok ⟨2, 0⟩, g) ∧
      g.decay? ⟨0, 0⟩ = some ⟨[⟨1, 0⟩], ∅, none, 2⟩ := by
  have hreach : Reachable copiedPair :=
    .step _ (.step _ (.step _ (.step _ (.empty {}) trivial) trivial) trivial) trivial
  obtain ⟨hiff, hdone, -⟩ := hreach.replace_atomic (.products [⟨1, 0⟩]) ⟨0, 0⟩ ∅
  have hP : copiedPair.particle? ⟨0, 0⟩ = some ⟨"a", ∅, none, [⟨0, 0⟩], 0⟩ := rfl
  have hrun := (hiff ⟨2, 0⟩ _).mpr ⟨_, hP, rfl⟩
  obtain ⟨Y, hY, hY'⟩ := (hdone _ _ _ hrun hP).2.1 ⟨0, 0⟩ (by decide) (by decide)
  cases (rfl : copiedPair.decay? ⟨0, 0⟩ = some ⟨[⟨1, 0⟩], ∅, some ⟨0, 0⟩, 2⟩).symm.trans hY
  exact ⟨_, hrun, hY'⟩

end Forest

end DecayForest
