import DecayForest.Proofs.Forest.Copying
import DecayForest.Proofs.Forest.Discarding
/-!
# Resolved decays

`resolve` copies a particle, copies a tree for each product of one of its decays, and joins the copies
by a copy of that decay. The forest grows by the one tree that this makes (`on_resolve`). The trees
that went into it are discarded later (`on_discardAlternatives`).
-/

namespace DecayForest

namespace Forest

variable {f g : Forest} {r x : ParticleId} {d : DecayId} {D : Decay} {type : String}
  {params ps : ParamList} {parent : Option ParticleId} {t v : Tree} {ts vs : List Tree}

theorem mapDecay_same (change : Decay → Decay) (h : ∀ D, change D = D) (f : Forest) (d : DecayId) :
    f.mapDecay d change = f := by
  refine eq_of_views (frame_mapDecay f d change) rfl (fun _ => rfl) fun y => ?_
  rw [decay?_mapDecay]
  split
  · next hy =>
    subst hy
    cases f.decay? y with
    | none => rfl
    | some D => exact congrArg some (h D)
  · rfl

namespace Grown

variable (hg : Grown f g (.node r type params [] :: vs))
include hg

private theorem join_free : ∀ q ∈ vs.map Tree.id, g.Free [] q :=
  fun q hq => hg.free q (List.mem_cons_of_mem r hq)

private theorem join_root : ∃ serial, g.particle? r = some ⟨type, params, none, [], serial⟩ := by
  cases hg.shows List.mem_cons_self with
  | node hr _ _ => exact ⟨_, hr⟩

private theorem join_acyclic : ∀ q ∈ vs.map Tree.id, ¬ g.Above q r := by
  intro q hq habove
  obtain ⟨n, hroot⟩ := hg.join_root
  have heq := habove.eq_of_root ((parent_eq_none_iff hroot).mp rfl)
  exact (List.nodup_cons.mp hg.distinct).1 (heq ▸ hq)

/-- The particle is in none of the trees that are to become its products. -/
private theorem join_apart : ∀ v ∈ vs, r ∉ v.ids := by
  intro v hv hmem
  refine hg.disjoint List.mem_cons_self (List.mem_cons_of_mem _ hv) (fun heq => ?_)
    (Tree.id_mem_ids _) hmem
  exact (List.nodup_cons.mp hg.distinct).1 (heq ▸ List.mem_map_of_mem hv)

/-- A new particle and new trees are joined to one tree by a decay. -/
theorem join (ps : ParamList) : Grown f (g.withDecay r (vs.map Tree.id) ps)
    [.node r type params [.mk g.nextDecay ps vs]] := by
  obtain ⟨n, hroot⟩ := hg.join_root
  obtain ⟨hr, hnodup⟩ := List.nodup_cons.mp hg.distinct
  have hmem : ∀ {x}, x ∈ (Tree.node r type params [.mk g.nextDecay ps vs]).ids ↔
      ∃ t ∈ Tree.node r type params [] :: vs, x ∈ t.ids := by
    intro x
    rw [Tree.ids_eq, List.mem_cons, List.exists_mem_cons_iff, Tree.ids_eq (.node r type params [])]
    simp [Tree.children_node, Branch.products]
  constructor
  case linked => exact hg.linked.withDecay hroot hnodup hg.join_free hg.join_acyclic
  case database => rw [database_withDecay, hg.database]
  case precedes => exact hg.precedes.trans (.withDecay ..)
  case particle? =>
    intro x hx
    have hold : ∀ t ∈ Tree.node r type params [] :: vs, x ≠ t.id := by
      rintro t ht rfl
      exact hg.fresh ht t.id_mem_ids hx
    have hproduct : x ∉ vs.map Tree.id := by
      intro hmem
      obtain ⟨v, hv, rfl⟩ := List.mem_map.mp hmem
      exact hold v (List.mem_cons_of_mem _ hv) rfl
    have hne : x ≠ r := hold _ List.mem_cons_self
    rw [particle?_withDecay, hg.particle? hx]
    simp [hproduct, hne]
  case decay? =>
    intro d hd
    rw [decay?_withDecay_of_spent (hg.precedes.spentDecay hd), hg.decay? hd]
  case shows =>
    intro t ht
    cases List.mem_singleton.mp ht
    refine .node (n := n) ?_ (fun b hb => ?_) fun b hb v hv => ?_
    · rw [particle?_withDecay, hroot, Option.map_some, if_pos rfl]
      exact congrArg (fun parent => some (Particle.mk type params parent _ n)) (if_neg hr)
    · cases List.mem_singleton.mp hb
      exact ⟨_, decay?_withDecay_self ..⟩
    · cases List.mem_singleton.mp hb
      exact Shows.withDecay hg.linked (fun w hw => hg.shows (List.mem_cons_of_mem _ hw))
        hg.join_apart hv ps
  case distinct => exact List.nodup_singleton _
  case fresh =>
    intro t x ht hx
    cases List.mem_singleton.mp ht
    obtain ⟨u, hu, hxu⟩ := hmem.mp hx
    exact hg.fresh hu hxu
  case only =>
    intro x X hX hx
    rw [particle?_withDecay] at hX
    obtain ⟨X₀, hX₀, -⟩ := Option.map_eq_some_iff.mp hX
    exact ⟨_, List.mem_singleton_self _, hmem.mpr (hg.only hX₀ hx)⟩
  case onlyDecay =>
    intro d D hD hd
    refine ⟨_, List.mem_singleton_self _, ?_⟩
    rw [Tree.decayIds_eq]
    by_cases hne : d = g.nextDecay
    · exact List.mem_append_left _ (hne ▸ List.mem_cons_self)
    · rw [decay?_withDecay_of_ne _ _ _ _ hne] at hD
      obtain ⟨u, hu, hdu⟩ := hg.onlyDecay hD hd
      rcases List.mem_cons.mp hu with rfl | hu
      · cases hdu
      · refine List.mem_append_right _ (List.mem_flatMap.mpr ⟨u, ?_, hdu⟩)
        exact Tree.mem_children.mpr ⟨_, List.mem_cons_self, hu⟩

end Grown

end Forest

namespace Edit

open Forest

variable {f g : Forest} {x : ParticleId} {X : Particle} {as : List Alternative} {us vs : List Tree}

/-- A particle gets a copy with one decay, into copies of the given trees. -/
theorem on_resolve (hf : Linked f) (hX : f.particle? x = some X)
    (has : List.Forall₂ (fun a u => a.root = u.id ∧ ∃ parent, f.Shows parent u) as us)
    (fraction : Option Float) (ps : ParamList) :
    ∃ g v, (resolve x fraction ps as).on f = (.ok ⟨v.id,
        as.foldl (fun p a => bothProbability p a.probability) fraction⟩, g) ∧
      Grown f g [v] ∧ v.shape = .node X.type X.params [.mk ps (us.map Tree.shape)] := by
  have hleaf := Grown.particle hf X.type X.params
  obtain ⟨vs, g, hcopies, hvs, hshapes⟩ := on_mapM_copyTree Alternative.root hleaf.linked
    (has.imp fun a u ⟨hroot, parent, hu⟩ => ⟨hroot, parent, hleaf.stay hu⟩)
  have hg : Grown f g (.node f.nextParticle X.type X.params [] :: vs) := hleaf.trans hvs
  obtain ⟨n, hroot⟩ := hg.join_root
  have hcheck : g.checkProducts [] (vs.map Tree.id) = .ok () :=
    (checkProducts_eq_ok [] _).mpr ⟨(List.nodup_cons.mp hg.distinct).2, hg.join_free⟩
  have hadd := on_addFreeDecay (vs.map Tree.id) ps g
  rw [hcheck] at hadd
  let k := g.plusDecay (vs.map Tree.id) ps
  have hk : Linked k := hg.linked.plusDecay _ _
  have hrootk : k.particle? f.nextParticle = some ⟨X.type, X.params, none, [], n⟩ := hroot
  have hadopt := on_adoptDecay (f := k) hrootk (g.decay?_plusDecay_self (vs.map Tree.id) ps) rfl
    ((checkProducts_eq_ok [] _).mpr ⟨(List.nodup_cons.mp hg.distinct).2, hg.join_free⟩)
    ((hk.checkCycle_eq_ok hrootk _).mpr hg.join_acyclic) ∅
  rw [mapDecay_same (fun D => { D with params := D.params.overlay ∅ }) fun _ => rfl] at hadopt
  refine ⟨_, _, ?_, hg.join ps, ?_⟩
  · unfold resolve
    rw [on_bind_of_ok (on_copy hX), on_bind_of_ok hcopies, on_bind_of_ok hadd,
      on_bind_of_ok hadopt]
    rfl
  · rw [Tree.shape_node, ← hshapes]
    rfl

theorem on_forM_discard (hf : Linked f) {ts : List Tree} (has : as.map Alternative.root = us.map Tree.id)
    (hg : Grown f g (us ++ ts)) :
    ∃ h, (as.forM fun a => Forest.discard a.root).on g = (.ok (), h) ∧ Grown f h ts := by
  induction us generalizing g as with
  | nil =>
    cases List.map_eq_nil_iff.mp has
    exact ⟨g, rfl, hg⟩
  | cons u us ih =>
    obtain ⟨a, as, rfl, ha, has⟩ := List.map_eq_cons_iff.mp has
    obtain ⟨k, hrun, hk⟩ := on_discard_grown hf hg
    obtain ⟨h, hruns, hh⟩ := ih has hk
    exact ⟨h, (on_bind_of_ok (ha ▸ hrun)).trans hruns, hh⟩

/-- The alternatives of products go, each a new tree or the product itself, which stays. -/
theorem on_discardAlternatives (hf : Linked f) {products tail : List Tree}
    {rs : List (List Alternative × List Tree)}
    (hproducts : ∀ u ∈ products, ∃ parent, f.Shows parent u)
    (hrs : List.Forall₂ (fun u r => ∃ us : List Tree, r.1.map Alternative.root = us.map Tree.id ∧
      (us = r.2 ∨ us = [u] ∧ r.2 = [])) products rs)
    (hg : Grown f g (rs.flatMap Prod.snd ++ tail)) :
    ∃ h, (((products.map Tree.id).zip (rs.map Prod.fst)).forM fun (product, as) =>
      discardAlternatives product as).on g = (.ok (), h) ∧ Grown f h tail := by
  induction hrs generalizing g with
  | nil => exact ⟨g, rfl, hg⟩
  | @cons u r products rs hr _ ih =>
    rw [List.flatMap_cons, List.append_assoc] at hg
    have hrest := fun v hv => hproducts v (List.mem_cons_of_mem u hv)
    obtain ⟨parent, hu⟩ := hproducts u List.mem_cons_self
    have hstep : ∃ k, (discardAlternatives u.id r.1).on g = (.ok (), k) ∧
        Grown f k (rs.flatMap Prod.snd ++ tail) := by
      unfold discardAlternatives
      obtain ⟨us, hroots, hus⟩ := hr
      rcases hus with rfl | ⟨rfl, hnil⟩
      · rw [List.filter_eq_self.mpr fun a ha => ?_]
        · exact on_forM_discard hf hroots hg
        · obtain ⟨v, hv, heq⟩ := List.mem_map.mp (hroots ▸ List.mem_map_of_mem ha)
          refine bne_iff_ne.mpr fun hau => ?_
          have hfresh := hg.fresh (List.mem_append_left _ hv) v.id_mem_ids
          rw [heq, hau] at hfresh
          exact hfresh (hu.spent u.id_mem_ids)
      · obtain ⟨a, as, heq, ha, has⟩ := List.map_eq_cons_iff.mp hroots
        cases List.map_eq_nil_iff.mp has
        rw [hnil, List.nil_append] at hg
        refine ⟨g, ?_, hg⟩
        rw [heq, List.filter_eq_nil_iff.mpr]
        · rfl
        · intro a' ha'
          cases List.mem_singleton.mp ha'
          simp [ha]
    obtain ⟨k, hrun, hk⟩ := hstep
    obtain ⟨h, hruns, hh⟩ := ih hrest hk
    exact ⟨h, (on_bind_of_ok hrun).trans hruns, hh⟩

end Edit

end DecayForest
