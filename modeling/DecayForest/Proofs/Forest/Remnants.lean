import DecayForest.Proofs.Forest.Duplication
import DecayForest.Proofs.Forest.Persistence
/-!
# What a failed copy leaves behind

A decay is copied product by product, and only then goes to its new parent. Where a product or the parent
turns out to be dead, all that has been copied by then stays, and a dead parent is the parent of the copied
products from then on (`copyDecayFor_refused`). Nothing here needs a linked forest, so it holds after
failures of this kind, too.
-/

namespace DecayForest

namespace Forest

/-- `g` is `f` with the copies `cs`, and decays, beside what was there. The parent of a new particle is
one of the copies. -/
structure Beside (f : Forest) (cs : List ParticleId) (g : Forest) : Prop where
  precedes : Precedes f g
  particle? : ∀ {x}, f.Spent x → g.particle? x = f.particle? x
  decay? : ∀ {d}, f.SpentDecay d → g.decay? d = f.decay? d
  fresh : ∀ {c}, c ∈ cs → ¬ f.Spent c
  live : ∀ {c}, c ∈ cs → ∃ C, g.particle? c = some C
  parent : ∀ {x X q}, ¬ f.Spent x → g.particle? x = some X → X.parent = some q → q ∈ cs

/-- What a failed copy of a decay leaves behind: all that was there, and beside it particles with live
parents, unless the new parent was dead. -/
structure Remnants (f g : Forest) (owner : Option ParticleId) (e : ModelError) : Prop where
  particle? : ∀ {x}, f.Spent x → g.particle? x = f.particle? x
  decay? : ∀ {d}, f.SpentDecay d → g.decay? d = f.decay? d
  orphan : ∀ {x X q}, g.particle? x = some X → X.parent = some q → g.particle? q = none →
    f.particle? x = some X ∨ owner = some q ∧ e = .deadParticle q

variable {f g : Forest} {p x : ParticleId} {X : Particle} {d : DecayId} {cs products : List ParticleId}
  {owner : Option ParticleId} {e : ModelError}

namespace Beside

theorem refl (f : Forest) : Beside f [] f where
  precedes := .refl f
  particle? _ := rfl
  decay? _ := rfl
  fresh := nofun
  live := nofun
  parent hx hX _ := (hx (spent_of_particle? hX)).elim

theorem plusParticle (hg : Beside f cs g) (type : String) (params : ParamList) :
    Beside f (g.nextParticle :: cs) (g.plusParticle type params) := by
  constructor
  case precedes => exact hg.precedes.trans (.plusParticle g type params)
  case particle? =>
    intro x hx
    rw [particle?_plusParticle_of_spent (hg.precedes.spent hx), hg.particle? hx]
  case decay? => exact hg.decay?
  case fresh =>
    intro c hc
    rcases List.mem_cons.mp hc with rfl | hc
    · exact fun hspent => g.not_spent_next (hg.precedes.spent hspent)
    · exact hg.fresh hc
  case live =>
    intro c hc
    rw [particle?_plusParticle]
    split
    · exact ⟨_, rfl⟩
    · next hne => exact hg.live ((List.mem_cons.mp hc).resolve_left hne)
  case parent =>
    intro x X q hx hX hq
    rw [particle?_plusParticle] at hX
    split at hX
    · cases hX
      cases hq
    · exact List.mem_cons_of_mem _ (hg.parent hx hX hq)

/-- A decay into copies, of a copy or of a dead particle, changes nothing old. -/
theorem particle?_withDecay (hg : Beside f cs g) (hp : p ∈ cs ∨ g.particle? p = none)
    (hproducts : ∀ q ∈ products, q ∈ cs) (params : ParamList) (hx : f.Spent x) :
    (g.withDecay p products params).particle? x = f.particle? x := by
  have hproduct : x ∉ products := fun hmem => hg.fresh (hproducts x hmem) hx
  rw [Forest.particle?_withDecay, hg.particle? hx]
  rcases hX : f.particle? x with _ | X
  · rfl
  · have hne : x ≠ p := by
      rintro rfl
      rcases hp with hp | hp
      · exact hg.fresh hp hx
      · cases hp.symm.trans ((hg.particle? hx).trans hX)
    simp [hproduct, hne]

theorem decay?_withDecay (hg : Beside f cs g) (p : ParticleId) (products : List ParticleId)
    (params : ParamList) (hd : f.SpentDecay d) :
    (g.withDecay p products params).decay? d = f.decay? d := by
  rw [decay?_withDecay_of_spent (hg.precedes.spentDecay hd), hg.decay? hd]

theorem withDecay (hg : Beside f cs g) (hp : p ∈ cs) (hproducts : ∀ q ∈ products, q ∈ cs)
    (params : ParamList) : Beside f cs (g.withDecay p products params) where
  precedes := hg.precedes.trans (.withDecay ..)
  particle? := hg.particle?_withDecay (.inl hp) hproducts params
  decay? := hg.decay?_withDecay p products params
  fresh := hg.fresh
  live hc := by
    obtain ⟨C, hC⟩ := hg.live hc
    rw [Forest.particle?_withDecay, hC]
    exact ⟨_, rfl⟩
  parent {x X q} hx hX hq := by
    rw [Forest.particle?_withDecay] at hX
    obtain ⟨X₀, hX₀, rfl⟩ := Option.map_eq_some_iff.mp hX
    by_cases hproduct : x ∈ products
    · simp only [if_pos hproduct, Option.some.injEq] at hq
      exact hq ▸ hp
    · simp only [if_neg hproduct] at hq
      exact hg.parent hx hX₀ hq

theorem remnants (hg : Beside f cs g) : Remnants f g owner e where
  particle? := hg.particle?
  decay? := hg.decay?
  orphan {x X q} hX hq hdead := by
    by_cases hspent : f.Spent x
    · exact .inl (hg.particle? hspent ▸ hX)
    · obtain ⟨Q, hQ⟩ := hg.live (hg.parent hspent hX hq)
      cases hdead.symm.trans hQ

/-- The copied products are orphans where their decay goes to a dead particle. -/
theorem remnants_withDecay (hg : Beside f cs g) (hp : g.particle? p = none)
    (hproducts : ∀ q ∈ products, q ∈ cs) (params : ParamList) :
    Remnants f (g.withDecay p products params) (some p) (.deadParticle p) where
  particle? := hg.particle?_withDecay (.inr hp) hproducts params
  decay? := hg.decay?_withDecay p products params
  orphan {x X q} hX hq hdead := by
    by_cases hspent : f.Spent x
    · exact .inl (hg.particle?_withDecay (.inr hp) hproducts params hspent ▸ hX)
    · rw [Forest.particle?_withDecay] at hX hdead
      obtain ⟨X₀, hX₀, rfl⟩ := Option.map_eq_some_iff.mp hX
      by_cases hproduct : x ∈ products
      · simp only [if_pos hproduct, Option.some.injEq] at hq
        exact .inr ⟨congrArg some hq, congrArg ModelError.deadParticle hq⟩
      · simp only [if_neg hproduct] at hq
        obtain ⟨Q, hQ⟩ := hg.live (hg.parent hspent hX₀ hq)
        rw [hQ] at hdead
        cases hdead

end Beside

end Forest

/-! ### Copies beside what was there -/

namespace Edit

open Forest

variable {α γ : Type} {f : Forest} {q : ParticleId} {cs : List ParticleId} {step : γ → Edit ParticleId}
  {l : List γ} {table : List (ParticleId × ParticleId)}

/-- Copies beside a forest remain where an edit makes more of them, whether it fails or not. Its answer
names copies. -/
def AddsCopies (f : Forest) (x : Edit α) (named : α → List ParticleId) : Prop :=
  ∀ cs g, Beside f cs g → x.Ends g
    (fun a h => ∃ cs', cs ⊆ cs' ∧ named a ⊆ cs' ∧ Beside f cs' h) fun h => ∃ cs', Beside f cs' h

theorem addsCopies_copy (f : Forest) (q : ParticleId) : AddsCopies f (copy q) fun c => [c] := by
  intro cs g hg
  rcases hq : g.particle? q with _ | Q
  · exact .of_error (on_copy_dead hq) ⟨cs, hg⟩
  · refine .of_ok (on_copy hq) ⟨_, List.subset_cons_self _ cs, ?_, hg.plusParticle Q.type Q.params⟩
    exact List.cons_subset.mpr ⟨List.mem_cons_self, List.nil_subset _⟩

theorem addsCopies_mapM (h : ∀ c ∈ l, AddsCopies f (step c) fun a => [a]) :
    AddsCopies f (l.mapM step) id := by
  induction l with
  | nil => exact fun cs g hg => .of_ok (on_pure [] g) ⟨cs, fun _ => id, List.nil_subset cs, hg⟩
  | cons c l ih =>
    intro cs g hg
    rw [List.mapM_cons]
    refine .bind (h c List.mem_cons_self cs g hg) fun a g' ⟨cs₁, hsub₁, ha, hg'⟩ => ?_
    refine .bind (ih (fun d hd => h d (List.mem_cons_of_mem c hd)) cs₁ g' hg')
      fun as g'' ⟨cs₂, hsub₂, has, hg''⟩ => ?_
    refine .of_ok (on_pure (a :: as) g'') ⟨cs₂, fun _ hx => hsub₂ (hsub₁ hx), ?_, hg''⟩
    exact List.cons_subset.mpr ⟨hsub₂ (ha List.mem_cons_self), has⟩

/-- The decays of a copy go to a copy, and into copies. -/
theorem keeps_copyDecays_beside (htable : ∀ x c, copyOf table x = .ok c → c ∈ cs) (q : ParticleId) :
    Keeps (Beside f cs) (copyDecays table q) := by
  refine .after (Ensures.lift fun c hc => htable q c hc) fun p hp => .bind (.ask _) fun Q =>
    .forM _ fun d _ => .bind (.ask _) fun D =>
      .after (Ensures.lift (Q := fun products => ∀ c ∈ products, c ∈ cs) ?_) ?_
  · intro products hproducts c hc
    obtain ⟨x, -, hx⟩ := exists_left_of_forall₂ (forall₂_of_mapM_eq_ok hproducts) hc
    exact htable x c hx
  · intro products hproducts g hg
    obtain ⟨P, hP⟩ := hg.live hp
    have hadd := on_addFreeDecay products D.params g
    rcases hcheck : g.checkProducts [] products with e | ⟨⟩ <;> rw [hcheck] at hadd
    · rwa [on_bind_of_error hadd]
    · rw [on_bind_of_ok hadd, on_attach_new hP hcheck]
      exact hg.withDecay hp hproducts D.params

theorem addsCopies_copyTree (f : Forest) (q : ParticleId) :
    AddsCopies f (copyTree q) fun c => [c] := by
  intro cs g hg
  rcases hq : g.particle? q with _ | Q
  · exact .of_error (on_copyTree_dead hq) ⟨cs, hg⟩
  refine .after (on_ask_particle hq) (.after (on_get g) ?_)
  refine .bind (addsCopies_mapM (fun x _ => addsCopies_copy f x) cs g hg)
    fun ys h ⟨cs', hsub, hys, hh⟩ => ?_
  have htable : ∀ x c, copyOf ((g.preorder q).zip ys) x = .ok c → c ∈ cs' :=
    fun x c hc => hys (List.of_mem_zip (mem_of_copyOf hc)).2
  have hloop : Keeps (Beside f cs') ((g.preorder q).forM (copyDecays ((g.preorder q).zip ys))) :=
    .forM _ fun x _ => keeps_copyDecays_beside htable x
  refine .bind (.of_keeps hloop hh fun k hk => ⟨cs', hk⟩) fun _ k hk => ?_
  rcases hc : copyOf ((g.preorder q).zip ys) q with e | c
  · exact .of_error (on_lift (.error e) k) ⟨cs', hk⟩
  · refine .of_ok (on_lift (.ok c) k) ⟨cs', hsub, ?_, hk⟩
    exact List.cons_subset.mpr ⟨htable q c hc, List.nil_subset _⟩

/-- Where the products of a decay are copied and their copies pass the check, the copy of the decay is
added. Otherwise copies remain. -/
theorem ends_copyFreeDecay (f : Forest) (d : DecayId) :
    (copyFreeDecay d).Ends f
      (fun c h => ∃ cs ys g params, Beside f cs g ∧ (∀ y ∈ ys, y ∈ cs) ∧
        g.checkProducts [] ys = .ok () ∧ c = g.nextDecay ∧ h = g.plusDecay ys params)
      fun h => ∃ cs, Beside f cs h := by
  rcases hd : f.decay? d with _ | D
  · exact .of_error (on_bind_of_error (on_ask_decay_dead hd)) ⟨[], .refl f⟩
  refine .after (on_ask_decay hd) ?_
  refine .bind (addsCopies_mapM (fun x _ => addsCopies_copyTree f x) [] f (.refl f))
    fun ys g ⟨cs, _, hys, hg⟩ => ?_
  have hadd := on_addFreeDecay ys D.params g
  rcases hcheck : g.checkProducts [] ys with e | ⟨⟩ <;> rw [hcheck] at hadd
  · exact .of_error hadd ⟨cs, hg⟩
  · exact .of_ok hadd ⟨cs, ys, g, D.params, hg, fun y hy => hys hy, hcheck, rfl, rfl⟩

end Edit

namespace Forest

open Edit

variable {f g : Forest} {d : DecayId} {owner : Option ParticleId} {e : ModelError}

theorem remnants_of_copyDecayFor (hrun : (copyDecayFor d owner).on f = (.error e, g)) :
    Remnants f g owner e := by
  have hcopy := ends_copyFreeDecay f d
  cases owner with
  | none =>
    obtain ⟨cs, hg⟩ := hcopy.error hrun
    exact hg.remnants
  | some p =>
    change (copyDecay d p).on f = _ at hrun
    unfold copyDecay at hrun
    rcases hfree : (copyFreeDecay d).on f with ⟨e' | c, h⟩
    · rw [on_bind_of_error hfree] at hrun
      cases hrun
      obtain ⟨cs, hg⟩ := hcopy.error hfree
      exact hg.remnants
    · obtain ⟨cs, ys, k, params, hk, hys, hcheck, rfl, rfl⟩ := hcopy.ok hfree
      rw [on_bind_of_ok hfree] at hrun
      rcases hp : k.particle? p with _ | P
      · rw [on_bind_of_error (on_attach_new_dead hp hcheck params)] at hrun
        cases hrun
        exact hk.remnants_withDecay hp hys params
      · rw [on_bind_of_ok (on_attach_new hp hcheck params)] at hrun
        cases hrun

theorem lasting_nextSerial (n : Nat) : Lasting (n < ·.nextSerial) :=
  lasting_of_precedes fun hgh hg => Nat.lt_of_lt_of_le hg hgh.serial

/-- A copy of a live particle takes a serial number at least. -/
theorem nextSerial_lt_copyTree {q : ParticleId} {Q : Particle} (hq : f.particle? q = some Q) :
    f.nextSerial < ((copyTree q).on f).2.nextSerial := by
  have hlast := lasting_nextSerial f.nextSerial
  obtain ⟨l, hl⟩ := exists_preorder hq
  have hfirst : f.nextSerial < (((q :: l).mapM copy).on f).2.nextSerial := by
    rw [List.mapM_cons]
    refine Keeps.rest ?_ fun _ => .bind (.mapM l fun x _ => hlast.copy x) fun _ => .pure _
    rw [on_copy hq]
    exact Nat.lt_succ_self _
  unfold copyTree
  rw [on_bind_of_ok (on_ask_particle hq), on_bind_of_ok (on_get f), hl]
  exact Keeps.rest hfirst fun copies =>
    .bind (.forM _ fun x _ => hlast.copyDecays _ x) fun _ => .lift _

/-- A copy of a decay takes a serial number at least, unless the first product is dead. -/
theorem nextSerial_lt_copyDecayFor {D : Decay} (hD : f.decay? d = some D)
    (hlive : ∀ q qs, D.products = q :: qs → ∃ Q, f.particle? q = some Q) (owner : Option ParticleId) :
    f.nextSerial < ((copyDecayFor d owner).on f).2.nextSerial := by
  have hlast := lasting_nextSerial f.nextSerial
  have hfree : f.nextSerial < ((copyFreeDecay d).on f).2.nextSerial := by
    unfold copyFreeDecay
    rw [on_bind_of_ok (on_ask_decay hD)]
    rcases hproducts : D.products with _ | ⟨q, qs⟩
    · exact Nat.lt_succ_self _
    · obtain ⟨Q, hQ⟩ := hlive q qs hproducts
      rw [List.mapM_cons]
      exact Keeps.rest (Keeps.rest (nextSerial_lt_copyTree hQ)
        fun _ => .bind (.mapM qs fun x _ => hlast.copyTree x) fun _ => .pure _)
        fun copies => hlast.addFreeDecay copies D.params
  cases owner with
  | none => exact hfree
  | some p => exact Keeps.rest hfree fun c => .bind (hlast.attach p c) fun _ => .pure c

/-- A copy of a decay that fails, in any forest. All that was there is as it was. Nothing is added only
where the decay is dead or its first product is. A particle without a live parent is left behind only
where the new parent is dead. -/
theorem copyDecayFor_refused (hrun : (copyDecayFor d owner).on f = (.error e, g)) :
    Remnants f g owner e ∧
      (g = f ↔ f.decay? d = none ∨
        ∃ D q qs, f.decay? d = some D ∧ D.products = q :: qs ∧ f.particle? q = none) := by
  refine ⟨remnants_of_copyDecayFor hrun, fun hsame => ?_, ?_⟩
  · rcases hd : f.decay? d with _ | D
    · exact .inl rfl
    refine .inr ⟨D, ?_⟩
    refine Classical.byContradiction fun hnone => ?_
    have hgrown := nextSerial_lt_copyDecayFor hd (fun q qs hproducts => ?_) owner
    · rw [hrun, hsame] at hgrown
      exact Nat.lt_irrefl _ hgrown
    · refine Option.ne_none_iff_exists'.mp fun hq => hnone ?_
      exact ⟨q, qs, rfl, hproducts, hq⟩
  · intro hdead
    have hfree : ∃ e', (copyFreeDecay d).on f = (.error e', f) := by
      rcases hdead with hd | ⟨D, q, qs, hD, hproducts, hq⟩
      · exact ⟨_, on_bind_of_error (on_ask_decay_dead hd)⟩
      · refine ⟨.deadParticle q, ?_⟩
        unfold copyFreeDecay
        rw [on_bind_of_ok (on_ask_decay hD), hproducts, List.mapM_cons]
        exact on_bind_of_error (on_bind_of_error (on_copyTree_dead hq))
    obtain ⟨e', hfree⟩ := hfree
    cases owner with
    | none => exact congrArg Prod.snd (hrun.symm.trans hfree)
    | some p => exact congrArg Prod.snd (hrun.symm.trans (on_bind_of_error hfree))

/-- A decay without a parent, its product, and the handle of a discarded particle. -/
def lostParent : Forest :=
  Operation.discard ⟨1, 0⟩ |>.after <| Operation.addParticle "b" ∅ |>.after <|
    Operation.addFreeDecay [⟨0, 0⟩] ∅ |>.after <| Operation.addParticle "a" ∅ |>.after {}

theorem reachable_lostParent : Reachable lostParent :=
  .step _ (.step _ (.step _ (.step _ (.empty {}) trivial) trivial) trivial) trivial

theorem copyDecayFor_refused_lostParent :
    ∃ g, (copyDecayFor ⟨0, 0⟩ (some ⟨1, 0⟩)).on lostParent = (.error (.deadParticle ⟨1, 0⟩), g) ∧
      Remnants lostParent g (some ⟨1, 0⟩) (.deadParticle ⟨1, 0⟩) ∧ g ≠ lostParent := by
  obtain ⟨g, hrun⟩ : ∃ g, (copyDecayFor ⟨0, 0⟩ (some ⟨1, 0⟩)).on lostParent =
      (.error (.deadParticle ⟨1, 0⟩), g) := ⟨_, rfl⟩
  have hdecay : lostParent.decay? ⟨0, 0⟩ = some ⟨[⟨0, 0⟩], ∅, none, 1⟩ := rfl
  have hproduct : lostParent.particle? ⟨0, 0⟩ = some ⟨"a", ∅, none, [], 0⟩ := rfl
  obtain ⟨hremnants, hsame⟩ := copyDecayFor_refused hrun
  refine ⟨g, hrun, hremnants, fun heq => ?_⟩
  rcases hsame.mp heq with hd | ⟨D, q, qs, hD, hproducts, hq⟩
  · cases hd.symm.trans hdecay
  · cases hdecay.symm.trans hD
    cases hproducts
    cases hq.symm.trans hproduct

/-- The copied product is left behind with the discarded particle as its parent, and so is the copied
decay. -/
theorem copy_leaves_orphans :
    ∃ g, Reachable lostParent ∧
      (copyDecayFor ⟨0, 0⟩ (some ⟨1, 0⟩)).on lostParent = (.error (.deadParticle ⟨1, 0⟩), g) ∧
      (lostParent.particleCount, lostParent.decayCount) = (1, 1) ∧
      (g.particleCount, g.decayCount) = (2, 2) ∧
      g.particle? ⟨1, 1⟩ = some ⟨"a", ∅, some ⟨1, 0⟩, [], 3⟩ ∧ g.particle? ⟨1, 0⟩ = none :=
  ⟨_, reachable_lostParent, rfl, rfl, rfl, rfl, rfl⟩

end Forest

end DecayForest
