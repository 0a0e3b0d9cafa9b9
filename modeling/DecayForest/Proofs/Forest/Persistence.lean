import DecayForest.Proofs.Forest.Reachability
/-!
# What lasts

All operations are made of six changes: one more particle or decay, another content of one that is there,
and one fewer. A property that these keep (`Edit.Lasting`) is kept by every operation, whether it succeeds
or fails half-way (`Operation.keeps`), and so by all operations that ever follow (`Operation.holds_afterAll`).
That a handle has been given out is such a property, and so is that it finds nothing any more.
-/

namespace DecayForest

namespace Edit

open Forest

/-- A property of forests that no single change breaks. The type of a particle never changes, and no serial
number does. -/
structure Lasting (I : Forest → Prop) : Prop where
  plusParticle : ∀ {f} type params, I f → I (f.plusParticle type params)
  plusDecay : ∀ {f} products params, I f → I (f.plusDecay products params)
  mapParticle : ∀ {f} p change, (∀ P, (change P).type = P.type ∧ (change P).serial = P.serial) → I f →
    I (f.mapParticle p change)
  mapDecay : ∀ {f} d change, (∀ D, (change D).serial = D.serial) → I f → I (f.mapDecay d change)
  minusParticle : ∀ {f} p, I f → I (f.minusParticle p)
  minusDecay : ∀ {f} d, I f → I (f.minusDecay d)

namespace Lasting

variable {I : Forest → Prop} (hI : Lasting I)
include hI

theorem addParticle (type : String) (params : ParamList) : Keeps I (addParticle type params) :=
  fun _ => hI.plusParticle type params

theorem insertDecay (products : List ParticleId) (params : ParamList) :
    Keeps I (insertDecay products params) :=
  fun _ => hI.plusDecay products params

theorem modifyParticle (p : ParticleId) (change : Particle → Particle)
    (h : ∀ P, (change P).type = P.type ∧ (change P).serial = P.serial) :
    Keeps I (modifyParticle p change) := by
  intro f hf
  rcases hp : f.particle? p with _ | P
  · rwa [on_modifyParticle_dead hp]
  · rw [on_modifyParticle hp]
    exact hI.mapParticle p change h hf

theorem modifyDecay (d : DecayId) (change : Decay → Decay) (h : ∀ D, (change D).serial = D.serial) :
    Keeps I (modifyDecay d change) := by
  intro f hf
  rcases hd : f.decay? d with _ | D
  · rwa [on_modifyDecay_dead hd]
  · rw [on_modifyDecay hd]
    exact hI.mapDecay d change h hf

theorem vacate (p : ParticleId) : Keeps I (vacate p) := by
  refine .bind .get fun f => ?_
  split
  · next P _ =>
    have hdecays : Keeps I (P.decays.forM fun d => modify fun f => f.minusDecay d) :=
      .forM _ fun d _ _ => hI.minusDecay d
    exact .bind (x := modify fun f => f.minusParticle p) (fun _ => hI.minusParticle p) fun _ => hdecays
  · exact .pure _

theorem addFreeDecay (products : List ParticleId) (params : ParamList) :
    Keeps I (addFreeDecay products params) :=
  .bind (.ask _) fun _ => hI.insertDecay products params

/-- Attachment and detachment give a decay and its products another parent. -/
theorem forM_parent (parent : Option ParticleId) (products : List ParticleId) :
    Keeps I (products.forM fun q => Forest.modifyParticle q fun p => { p with parent }) :=
  .forM _ fun q _ => hI.modifyParticle q _ fun _ => ⟨rfl, rfl⟩

theorem attach (p : ParticleId) (d : DecayId) : Keeps I (attach p d) :=
  .bind (.ask _) fun D => .bind (hI.forM_parent _ D.products) fun _ =>
    .bind (hI.modifyDecay d _ fun _ => rfl) fun _ => hI.modifyParticle p _ fun _ => ⟨rfl, rfl⟩

theorem detach (d : DecayId) : Keeps I (detach d) :=
  .bind (.ask _) fun D => .bind (hI.forM_parent _ D.products) fun _ =>
    hI.modifyDecay d _ fun _ => rfl

theorem addDecay (p : ParticleId) (products : List ParticleId) (params : ParamList) :
    Keeps I (addDecay p products params) :=
  .bind (.ask _) fun _ => .bind (.ask _) fun _ =>
    .bind (hI.addFreeDecay products params) fun d => .bind (hI.attach p d) fun _ => .pure _

theorem adoptDecay (p : ParticleId) (d : DecayId) (params : ParamList) :
    Keeps I (adoptDecay p d params) := by
  refine .bind (.ask _) fun _ => .bind (.ask _) fun D => ?_
  have hparams := hI.modifyDecay d (fun D => { D with params := D.params.overlay params }) fun _ => rfl
  have hrest := hparams.bind fun _ => .bind (hI.attach p d) fun _ => .pure d
  have hchecked := Keeps.bind (.ask (·.checkProducts [] D.products)) fun _ =>
    .bind (.ask (·.checkCycle p D.products)) fun _ => hrest
  split
  · exact .bind .get fun _ => .bind (.throw _) fun _ => hchecked
  · exact hchecked

theorem clearDecays (p : ParticleId) (ds : List DecayId) : Keeps I (clearDecays p ds) :=
  .bind (hI.modifyParticle p _ fun _ => ⟨rfl, rfl⟩) fun _ => .forM _ fun d _ => hI.detach d

/-- What comes after the checks of a replacement. -/
private theorem replacement {last : Edit DecayId} (hlast : Keeps I last) (p : ParticleId)
    (ds : List DecayId) (freed products : List ParticleId) :
    Keeps I (do
      ask (·.checkReplacement p freed products)
      Forest.clearDecays p ds
      last) :=
  .bind (.ask _) fun _ => .bind (hI.clearDecays p ds) fun _ => hlast

theorem setDecay (p : ParticleId) (products : List ParticleId) (params : ParamList) :
    Keeps I (setDecay p products params) :=
  .bind (.ask _) fun _ => hI.replacement (hI.addDecay p products params) p _ _ _

theorem adoptOnly (p : ParticleId) (d : DecayId) (params : ParamList) :
    Keeps I (adoptOnly p d params) := by
  refine .bind (.ask _) fun (ds, freed) => .bind (.ask _) fun D => ?_
  have hrest := hI.replacement (hI.adoptDecay p d params) p ds freed D.products
  split
  · dsimp only
    split
    · exact hrest
    · exact .bind .get fun _ => .bind (.throw _) fun _ => hrest
  · exact hrest

theorem removeDecay (p : ParticleId) (d : DecayId) : Keeps I (removeDecay p d) := by
  refine .bind (.ask _) fun P => ?_
  have hrest := Keeps.bind (hI.modifyParticle p (fun P => { P with decays := P.decays.erase d })
    fun _ => ⟨rfl, rfl⟩) fun _ => hI.detach d
  split
  · exact hrest
  · exact .bind (.throw _) fun _ => hrest

theorem copy (p : ParticleId) : Keeps I (copy p) :=
  .bind (.ask _) fun P => hI.addParticle P.type P.params

theorem copyDecays (table : List (ParticleId × ParticleId)) (p : ParticleId) :
    Keeps I (copyDecays table p) :=
  .bind (.lift _) fun parent => .bind (.ask _) fun _ => .forM _ fun _ _ =>
    .bind (.ask _) fun D => .bind (.lift _) fun products =>
      .bind (hI.addFreeDecay products D.params) fun e => hI.attach parent e

theorem copyTree (p : ParticleId) : Keeps I (copyTree p) :=
  .bind (.ask _) fun _ => .bind .get fun _ => .bind (.mapM _ fun q _ => hI.copy q) fun _ =>
    .bind (.forM _ fun q _ => hI.copyDecays _ q) fun _ => .lift _

theorem copyFreeDecay (d : DecayId) : Keeps I (copyFreeDecay d) :=
  .bind (.ask _) fun D => .bind (.mapM _ fun q _ => hI.copyTree q) fun products =>
    hI.addFreeDecay products D.params

theorem copyDecay (d : DecayId) (p : ParticleId) : Keeps I (copyDecay d p) :=
  .bind (hI.copyFreeDecay d) fun e => .bind (hI.attach p e) fun _ => .pure _

theorem discard (p : ParticleId) : Keeps I (discard p) := by
  refine .bind (.ask _) fun P => ?_
  have hrest := Keeps.bind .get fun f : Forest => .forM (f.preorder p) fun q _ => hI.vacate q
  split
  · exact .bind (.throw _) fun _ => hrest
  · exact hrest

theorem resolve (p : ParticleId) (fraction : Option Float) (params : ParamList)
    (combination : List Alternative) : Keeps I (resolve p fraction params combination) :=
  .bind (hI.copy p) fun root => .bind (.mapM _ fun a _ => hI.copyTree a.root) fun chosen =>
    .bind (hI.addFreeDecay chosen params) fun d => .bind (hI.adoptDecay root d ∅) fun _ => .pure _

end Lasting

/-- Operations only add to what a forest has given out. -/
theorem lasting_of_precedes {I : Forest → Prop} (h : ∀ {f g}, Precedes f g → I f → I g) : Lasting I where
  plusParticle type params := h (.plusParticle _ type params)
  plusDecay products params := h (.plusDecay _ products params)
  mapParticle _ _ _ := h (.of_frame (frame_mapParticle ..))
  mapDecay _ _ _ := h (.of_frame (frame_mapDecay ..))
  minusParticle p := h (.minusParticle _ p)
  minusDecay d := h (.minusDecay _ d)

end Edit

namespace Operation

open Forest Edit

/-- What lasts is kept by every operation. -/
theorem keeps {I : Forest → Prop} (hI : Lasting I) (op : Operation) : Keeps I op.edit := by
  cases op with
  | addParticle type params => exact (hI.addParticle type params).void
  | putParam id name v => exact hI.modifyParticle id _ fun _ => ⟨rfl, rfl⟩
  | putDecayParam id name v => exact hI.modifyDecay id _ fun _ => rfl
  | addFreeDecay products params => exact (hI.addFreeDecay products params).void
  | addDecay id products params => exact (hI.addDecay id products params).void
  | adoptDecay id decay params => exact (hI.adoptDecay id decay params).void
  | setDecay id products params => exact (hI.setDecay id products params).void
  | adoptOnly id decay params => exact (hI.adoptOnly id decay params).void
  | removeDecay id decay => exact hI.removeDecay id decay
  | copy id => exact (hI.copy id).void
  | copyTree id => exact (hI.copyTree id).void
  | copyFreeDecay decay => exact (hI.copyFreeDecay decay).void
  | copyDecay decay parent => exact (hI.copyDecay decay parent).void
  | discard id => exact hI.discard id
  | expand id limit => exact (Keeps.expand hI.resolve hI.discard id limit).void

theorem precedes_after (op : Operation) (f : Forest) : Precedes f (op.after f) :=
  op.keeps (lasting_of_precedes fun hgh hfg => hfg.trans hgh) f (.refl f)

/-- The forest after several operations. -/
def afterAll (ops : List Operation) (f : Forest) : Forest :=
  ops.foldl (fun f op => op.after f) f

theorem afterAll_append (ops ops' : List Operation) (f : Forest) :
    afterAll (ops ++ ops') f = afterAll ops' (afterAll ops f) :=
  List.foldl_append

/-- What lasts holds after all operations that follow. -/
theorem holds_afterAll {I : Forest → Prop} (hI : Lasting I) (ops : List Operation) {f : Forest}
    (hf : I f) : I (afterAll ops f) := by
  induction ops generalizing f with
  | nil => exact hf
  | cons op ops ih => exact ih (op.keeps hI f hf)

end Operation

namespace Forest

open Edit

/-- A handle that has been spent finds no particle. -/
structure Gone (x : ParticleId) (f : Forest) : Prop where
  spent : f.Spent x
  particle? : f.particle? x = none

/-- A handle that has been spent finds no decay. -/
structure GoneDecay (d : DecayId) (f : Forest) : Prop where
  spent : f.SpentDecay d
  decay? : f.decay? d = none

/-- What is gone stays away: new particles have new handles, and only one that is there is changed. -/
theorem lasting_gone (x : ParticleId) : Lasting (Gone x) where
  plusParticle type params h :=
    ⟨(Precedes.plusParticle ..).spent h.spent, by rw [particle?_plusParticle_of_spent h.spent, h.particle?]⟩
  plusDecay _ _ h := ⟨h.spent, h.particle?⟩
  mapParticle {f} p change _ h := by
    refine ⟨(Precedes.of_frame (frame_mapParticle ..)).spent h.spent, ?_⟩
    rw [particle?_mapParticle]
    split
    · next heq => rw [← heq, h.particle?]; rfl
    · exact h.particle?
  mapDecay _ _ _ h := ⟨h.spent, h.particle?⟩
  minusParticle p h := by
    refine ⟨(Precedes.minusParticle ..).spent h.spent, ?_⟩
    rw [particle?_minusParticle, h.particle?, ite_self]
  minusDecay _ h := ⟨h.spent, h.particle?⟩

theorem lasting_goneDecay (d : DecayId) : Lasting (GoneDecay d) where
  plusParticle _ _ h := ⟨h.spent, h.decay?⟩
  plusDecay products params h :=
    ⟨(Precedes.plusDecay ..).spentDecay h.spent, by rw [decay?_plusDecay_of_spent h.spent, h.decay?]⟩
  mapParticle _ _ _ h := ⟨h.spent, h.decay?⟩
  mapDecay {f} e change _ h := by
    refine ⟨(Precedes.of_frame (frame_mapDecay ..)).spentDecay h.spent, ?_⟩
    rw [decay?_mapDecay]
    split
    · next heq => rw [← heq, h.decay?]; rfl
    · exact h.decay?
  minusParticle _ h := ⟨h.spent, h.decay?⟩
  minusDecay e h := by
    refine ⟨(Precedes.minusDecay ..).spentDecay h.spent, ?_⟩
    rw [decay?_minusDecay, h.decay?, ite_self]

end Forest

end DecayForest
