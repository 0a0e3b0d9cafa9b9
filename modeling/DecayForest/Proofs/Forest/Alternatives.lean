import DecayForest.Proofs.Forest.Choices
import DecayForest.Proofs.Forest.Fractions
import DecayForest.Proofs.Forest.Reachability
import DecayForest.Proofs.Forest.Resolving
/-!
# Expansion

`expandFrom` goes down a tree and makes the alternatives of a particle from those of the products of
its decays. On the way the forest grows by trees that are discarded again, and what is still to be
read never changes, so the answer is the list of all alternatives (`on_expandFrom`). It is refused
where a branching fraction is at fault (`on_expandFrom_refused`). Together with the checks that come
first, `Reachable.expand_enumerates` says when an expansion succeeds and what it returns.
-/

namespace DecayForest

/-- A tree as an answer, with its probability. -/
def Tree.asAlternative (rule : FractionRule) (t : Tree) : Alternative :=
  ⟨t.id, t.shape.weight rule⟩

/-- The trees `us` are the alternatives of `t`. They are the new trees `ts`, or `t` itself. -/
structure Yields (t : Tree) (us ts : List Tree) : Prop where
  shapes : us.map Tree.shape = t.alternatives
  own : us = ts ∨ us = [t] ∧ ts = []

namespace Edit

open Forest

variable {f g : Forest} {rule : FractionRule} {parent : Option ParticleId} {id : ParticleId}
  {X : Particle} {type : String} {params : ParamList} {branches : List Branch} {b : Branch}
  {t u : Tree} {inner : ParticleId → Edit (List Alternative)} {room : Nat} {ts : List Tree}

/-- What is known of the answers for all products of a decay. -/
private theorem exists_answers {products : List Tree} {rs : List (List Alternative × List Tree)}
    (hrs : List.Forall₂ (fun u r => ∃ us, r.1 = us.map (Tree.asAlternative rule) ∧ Yields u us r.2)
      products rs) :
    ∃ uss : List (List Tree), rs.map Prod.fst = uss.map (List.map (Tree.asAlternative rule)) ∧
      uss.map (List.map Tree.shape) = products.map Tree.alternatives ∧
      ∀ us ∈ uss, ∀ u ∈ us, u ∈ products ∨ u ∈ rs.flatMap Prod.snd := by
  induction hrs with
  | nil => exact ⟨[], rfl, rfl, nofun⟩
  | @cons u r products rs hr _ ih =>
    obtain ⟨us, hus, hyields⟩ := hr
    obtain ⟨uss, huss, hshapes, hall⟩ := ih
    refine ⟨us :: uss, ?_, ?_, fun vs hvs v hv => ?_⟩
    · rw [List.map_cons, List.map_cons, hus, huss]
    · rw [List.map_cons, List.map_cons, hyields.shapes, hshapes]
    · rw [List.mem_cons, List.flatMap_cons, List.mem_append]
      rcases List.mem_cons.mp hvs with rfl | hvs
      · rcases hyields.own with rfl | ⟨rfl, -⟩
        · exact .inr (.inl hv)
        · exact .inl (.inl (List.mem_singleton.mp hv))
      · rcases hall vs hvs v hv with hv | hv
        · exact .inl (.inr hv)
        · exact .inr (.inr hv)

/-- Choices of trees that are shown are resolved in sequence, each to a new tree. -/
private theorem on_mapM_resolve (hf : Linked f) (hX : f.particle? id = some X) {x : Option Float}
    {chosen : List (List Tree)} (hshown : ∀ us ∈ chosen, ∀ u ∈ us, ∃ parent, f.Shows parent u)
    (hfraction : ∀ us ∈ chosen, rule X.type ((us.map Tree.shape).map Shape.type) params = .ok x) :
    ∃ vs g, ((chosen.map (List.map (Tree.asAlternative rule))).mapM (resolve id x params)).on f =
        (.ok (vs.map (Tree.asAlternative rule)), g) ∧ Grown f g vs ∧
      vs.map Tree.shape = chosen.map fun us =>
        .node X.type X.params [.mk params (us.map Tree.shape)] := by
  obtain ⟨rs, g, hrun, hg, hrs⟩ := on_mapM_grown_one (resolve id x params)
    (l := chosen.map (List.map (Tree.asAlternative rule))) (m := chosen)
    (S := fun c us => c = us.map (Tree.asAlternative rule) ∧ us ∈ chosen)
    (R := fun us r => r.1 = r.2.asAlternative rule ∧
      r.2.shape = .node X.type X.params [.mk params (us.map Tree.shape)]) hf
    (List.forall₂_map_left_iff.mpr (List.forall₂_same.mpr fun us hus => ⟨rfl, hus⟩)) <| by
      rintro c us ⟨rfl, hus⟩ g ts hg
      have hrel : List.Forall₂ (fun a u => a.root = u.id ∧ ∃ parent, g.Shows parent u)
          (us.map (Tree.asAlternative rule)) us := by
        refine List.forall₂_map_left_iff.mpr (List.forall₂_same.mpr fun u hu => ⟨rfl, ?_⟩)
        obtain ⟨parent, hu⟩ := hshown us hus u hu
        exact ⟨parent, hg.stay hu⟩
      obtain ⟨h, v, hrun, hv, hshape⟩ := on_resolve hg.linked (hg.live hX) hrel x params
      have hweight : v.shape.weight rule = weightsFrom rule x (us.map Tree.shape) := by
        rw [hshape, Shape.weight, Shape.Decay.weight, hfraction us hus]
      refine ⟨_, h, v, hrun, hv, congrArg (Alternative.mk v.id) ?_, hshape⟩
      rw [hweight, weightsFrom_eq, List.foldl_map, List.foldl_map]
      rfl
  have hanswers : rs.map Prod.fst = (rs.map Prod.snd).map (Tree.asAlternative rule) := by
    rw [List.map_map]
    refine List.map_congr_left fun r hr => ?_
    obtain ⟨us, -, hanswer, -⟩ := exists_left_of_forall₂ hrs hr
    exact hanswer
  refine ⟨rs.map Prod.snd, g, hanswers ▸ hrun, hg, ?_⟩
  rw [List.map_map]
  exact (forall₂_iff_map_eq.mp (hrs.imp fun us r hr => hr.2.symm)).symm

/-- A decay yields one tree for each choice among the alternatives of its products. -/
theorem on_expandDecay (hf : Linked f) (hrule : f.fractionOf = rule)
    (ht : f.Shows parent (.node id type params branches)) (hb : b ∈ branches) {x : Option Float}
    (hx : f.branchingFraction b.id = .ok x)
    (hinner : ∀ u ∈ b.products, ∀ g ts, Grown f g ts → ∃ h us vs,
      (inner u.id).on g = (.ok (us.map (Tree.asAlternative rule)), h) ∧ Grown g h vs ∧
        Yields u us vs) :
    ∃ g us, (expandDecay inner id b.id).on f = (.ok (us.map (Tree.asAlternative rule)), g) ∧
      Grown f g us ∧ us.map Tree.shape =
        (choices (b.products.map Tree.alternatives)).map fun choice =>
          .node type params [.mk b.params choice] := by
  have hchild : ∀ u ∈ b.products, f.Shows (some id) u := fun u hu => ht.product hb hu
  obtain ⟨X, hX, -, -, heq⟩ := ht.top
  obtain ⟨-, rfl, rfl, -⟩ := Tree.node.inj heq
  rw [Tree.id_node] at hX
  -- the alternatives of the products
  obtain ⟨rs, g₁, hrun₁, hg₁, hrs⟩ := on_mapM_grown inner (l := b.products.map Tree.id)
    (m := b.products) (S := fun x u => x = u.id ∧ u ∈ b.products)
    (R := fun u as vs => ∃ us, as = us.map (Tree.asAlternative rule) ∧ Yields u us vs) hf
    (List.forall₂_map_left_iff.mpr (List.forall₂_same.mpr fun u hu => ⟨rfl, hu⟩)) <| by
      rintro x u ⟨rfl, hu⟩ g ts hg
      obtain ⟨h, us, vs, hrun, hvs, hyields⟩ := hinner u hu g ts hg
      exact ⟨_, h, vs, hrun, hvs, us, rfl, hyields⟩
  obtain ⟨uss, huss, hshapes, hall⟩ := exists_answers hrs
  -- one tree for each choice
  have hshown : ∀ choice ∈ choices uss, ∀ u ∈ choice, ∃ parent, g₁.Shows parent u := by
    intro choice hchoice u hu
    obtain ⟨us, hus, huus⟩ := exists_right_of_forall₂
      (forall₂_of_mem_choices hchoice) hu
    rcases hall us hus u huus with hu | hu
    · exact ⟨some id, hg₁.stay (hchild u hu)⟩
    · exact ⟨none, hg₁.shows hu⟩
  have hfraction : ∀ choice ∈ choices uss,
      rule X.type ((choice.map Tree.shape).map Shape.type) b.params = .ok x := by
    intro choice hchoice
    have hmem : choice.map Tree.shape ∈ choices (b.products.map Tree.alternatives) := by
      rw [← hshapes, choices_map]
      exact List.mem_map_of_mem hchoice
    rw [Tree.map_type_of_mem_choices hmem, ← hrule, ← hx, ht.branchingFraction_eq hb]
    rfl
  obtain ⟨vs, g₂, hrun₂, hg₂, hvs⟩ := on_mapM_resolve hg₁.linked (hg₁.live hX) hshown hfraction
  -- what the choices were made of
  obtain ⟨h, hrun₃, hh⟩ := on_discardAlternatives hf (fun u hu => ⟨some id, hchild u hu⟩)
    (hrs.imp fun u r hr => by
      obtain ⟨us, hus, hyields⟩ := hr
      refine ⟨us, ?_, hyields.own⟩
      rw [hus, List.map_map]
      rfl)
    (hg₁.trans hg₂)
  obtain ⟨n, hB⟩ := ht.branch hb
  refine ⟨h, vs, ?_, hh, ?_⟩
  · unfold expandDecay
    rw [on_bind_of_ok (a := x) (g := f) (by rw [on_ask, hx]),
      on_bind_of_ok (on_ask_decay hB), on_bind_of_ok hrun₁, huss, choices_map,
      on_bind_of_ok hrun₂, ← huss, on_bind_of_ok hrun₃]
    rfl
  · rw [hvs, ← hshapes, choices_map, List.map_map]
    rfl

/-- The expansion of a leaf is the leaf itself. -/
theorem on_expandFrom_leaf (ht : f.Shows parent (.node id type params [])) (room : Nat) :
    (expandFrom room id).on f = (.ok [⟨id, some 1⟩], f) := by
  obtain ⟨X, hX, -, hdecays, -⟩ := ht.top
  rw [Tree.id_node] at hX
  cases room with
  | zero =>
    rw [expandFrom, on_bind_of_ok (on_ask_particle hX)]
    rfl
  | succ room =>
    rw [expandFrom, on_bind_of_ok (on_ask_particle hX), hdecays]
    rfl

private theorem on_expandFrom_node (ht : f.Shows parent (.node id type params branches))
    (hne : branches ≠ []) (room : Nat) :
    (expandFrom (room + 1) id).on f =
      (branches.mapM (fun b => expandDecay (expandFrom room) id b.id) >>= fun answers =>
        pure answers.flatten).on f := by
  obtain ⟨X, hX, -, hdecays, -⟩ := ht.top
  rw [Tree.id_node] at hX
  rw [expandFrom, on_bind_of_ok (on_ask_particle hX), hdecays, if_neg, List.mapM_map]
  · rfl
  · rw [List.isEmpty_iff, Tree.branches_node, List.map_eq_nil_iff]
    exact hne

private theorem product_below (ht : f.Shows parent t) (hb : b ∈ t.branches) (hu : u ∈ b.products)
    (hroom : t.height < room + 1) : f.Shows (some t.id) u ∧ u.height < room := by
  have hheight : u.height < t.height :=
    Tree.height_lt_of_mem_children (Tree.mem_children.mpr ⟨b, hb, hu⟩)
  exact ⟨ht.product hb hu, Nat.lt_of_lt_of_le hheight (Nat.le_of_lt_succ hroom)⟩

/-- A particle with decays is answered with new trees only, if what is below it is answered at all. -/
private theorem on_expandFrom_branches (hf : Linked f) (hrule : f.fractionOf = rule)
    (ht : f.Shows parent (.node id type params branches)) (hne : branches ≠ [])
    (hw : f.Weighable (.node id type params branches))
    (hinner : ∀ b ∈ branches, ∀ u ∈ b.products, ∀ g ts, Grown f g ts → ∃ h us vs,
      (expandFrom room u.id).on g = (.ok (us.map (Tree.asAlternative rule)), h) ∧ Grown g h vs ∧
        Yields u us vs) :
    ∃ g us, (expandFrom (room + 1) id).on f = (.ok (us.map (Tree.asAlternative rule)), g) ∧
      Grown f g us ∧ us.map Tree.shape = (Tree.node id type params branches).alternatives := by
  obtain ⟨rs, g, hrun, hg, hrs⟩ := on_mapM_grown
    (fun b : Branch => expandDecay (expandFrom room) id b.id) (l := branches) (m := branches)
    (S := fun b c => b = c ∧ b ∈ branches)
    (R := fun b as us => as = us.map (Tree.asAlternative rule) ∧ us.map Tree.shape =
      (choices (b.products.map Tree.alternatives)).map fun choice =>
        .node type params [.mk b.params choice]) hf
    (List.forall₂_same.mpr fun b hb => ⟨rfl, hb⟩) <| by
      rintro b _ ⟨rfl, hb⟩ g ts hg
      obtain ⟨⟨x, hx⟩, -⟩ := weighable_iff.mp hw b hb
      rw [← ht.branchingFraction_grown hg (Tree.branch_mem_decayIds hb)] at hx
      obtain ⟨h, us, hrun, hh, hshapes⟩ := on_expandDecay hg.linked
        ((fractionOf_congr hg.database).trans hrule) (hg.stay ht) hb hx
        fun u hu k ts hk => hinner b hb u hu k _ (hg.trans hk)
      exact ⟨_, h, us, hrun, hh, rfl, hshapes⟩
  refine ⟨g, rs.flatMap Prod.snd, ?_, hg, ?_⟩
  · rw [on_expandFrom_node ht hne, on_bind_of_ok hrun, on_pure, List.map_flatMap]
    refine congrArg (fun answers => (Except.ok answers, g)) ?_
    refine congrArg List.flatten (List.map_congr_left fun r hr => ?_)
    obtain ⟨b, -, hanswer, -⟩ := exists_left_of_forall₂ hrs hr
    exact hanswer
  · rw [Tree.alternatives_node hne, List.map_flatMap]
    exact congrArg List.flatten
      (forall₂_iff_map_eq.mp (hrs.imp fun b r hr => hr.2.symm)).symm

/-- With room enough and no branching fraction at fault, the answer lists all alternatives. -/
theorem on_expandFrom (hf : Linked f) (hrule : f.fractionOf = rule) (ht : f.Shows parent t)
    (hroom : t.height < room) (hw : f.Weighable t) :
    ∃ g us vs, (expandFrom room t.id).on f = (.ok (us.map (Tree.asAlternative rule)), g) ∧
      Grown f g vs ∧ Yields t us vs := by
  induction t using Tree.induction generalizing f parent room with
  | node id type params branches ih =>
    by_cases hne : branches = []
    · subst hne
      refine ⟨f, [.node id type params []], [], ?_, .refl hf, ?_, .inr ⟨rfl, rfl⟩⟩
      · rw [Tree.id_node, on_expandFrom_leaf ht]
        rfl
      · rw [Tree.alternatives_leaf]
        rfl
    cases room with
    | zero => exact (Nat.not_lt_zero _ hroom).elim
    | succ room =>
      obtain ⟨g, us, hrun, hg, hshapes⟩ := on_expandFrom_branches hf hrule ht hne hw
        fun b hb u hu g ts hg => by
          obtain ⟨hu', hheight⟩ := product_below ht hb hu hroom
          exact ih b hb u hu hg.linked ((fractionOf_congr hg.database).trans hrule) (hg.stay hu')
            hheight ((hu'.weighable_grown hg).mpr ((weighable_iff.mp hw b hb).2 u hu))
      exact ⟨g, us, us, hrun, hg, hshapes, .inl rfl⟩

/-- The answer for a particle with decays consists of new trees. -/
theorem on_expandFrom_new (hf : Linked f) (ht : f.Shows parent t) (hne : t.branches ≠ [])
    (hroom : t.height < room) (hw : f.Weighable t) :
    ∃ g us, (expandFrom room t.id).on f = (.ok (us.map (Tree.asAlternative f.fractionOf)), g) ∧
      Grown f g us ∧ us.map Tree.shape = t.alternatives := by
  rcases t with ⟨id, type, params, branches⟩
  cases room with
  | zero => exact (Nat.not_lt_zero _ hroom).elim
  | succ room =>
    refine on_expandFrom_branches hf rfl ht hne hw fun b hb u hu g ts hg => ?_
    obtain ⟨hu', hheight⟩ := product_below ht hb hu hroom
    exact on_expandFrom hg.linked (fractionOf_congr hg.database) (hg.stay hu') hheight
      ((hu'.weighable_grown hg).mpr ((weighable_iff.mp hw b hb).2 u hu))

/-- A decay is refused where its own branching fraction is at fault, or one below its products. -/
theorem on_expandDecay_refused {fault : ModelError → Prop} (hf : Linked f)
    (ht : f.Shows parent (.node id type params branches)) (hb : b ∈ branches)
    (hbad : ¬ ((∃ x, f.branchingFraction b.id = .ok x) ∧ ∀ u ∈ b.products, f.Weighable u))
    (hfraction : ∀ e, f.branchingFraction b.id = .error e → fault e)
    (hinner : ∀ u ∈ b.products, f.Weighable u → ∀ g ts, Grown f g ts →
      ∃ as h vs, (inner u.id).on g = (.ok as, h) ∧ Grown g h vs)
    (hrefused : ∀ u ∈ b.products, ¬ f.Weighable u → ∀ g ts, Grown f g ts →
      (inner u.id).Refused g fault) :
    (expandDecay inner id b.id).Refused f fault := by
  unfold expandDecay
  rcases hx : f.branchingFraction b.id with e | x
  · exact ⟨e, f, [], on_bind_of_error (by rw [on_ask, hx]), .refl hf, hfraction e hx⟩
  · have hsome : ∃ u ∈ b.products, ¬ f.Weighable u := by
      refine Classical.by_contradiction fun hnone => hbad ⟨⟨x, hx⟩, fun u hu => ?_⟩
      exact Classical.by_contradiction fun hu' => hnone ⟨u, hu, hu'⟩
    have hfail := on_mapM_refused (fun u : Tree => inner u.id) f.Weighable hf hinner hrefused hsome
    obtain ⟨n, hB⟩ := ht.branch hb
    refine .after (b := x) (g := f) (by rw [on_ask, hx]) (.refl hf) ?_
    refine .after (on_ask_decay hB) (.refl hf) (.bind ?_ _)
    rw [List.mapM_map]
    exact hfail

/-- An expansion is refused where some branching fraction is at fault, and the fault is told. What has
been copied until then stays. -/
theorem on_expandFrom_refused (hf : Linked f) (ht : f.Shows parent t) (hroom : t.height < room)
    (hw : ¬ f.Weighable t) : (expandFrom room t.id).Refused f (f.FaultBelow t) := by
  induction t using Tree.induction generalizing f parent room with
  | node id type params branches ih =>
    obtain ⟨b₁, hb₁, hbad⟩ : ∃ b ∈ branches, ¬ ((∃ x, f.branchingFraction b.id = .ok x) ∧
        ∀ u ∈ b.products, f.Weighable u) := by
      rw [weighable_iff] at hw
      refine Classical.by_contradiction fun hnone => hw fun b hb => ?_
      exact Classical.by_contradiction fun hbad => hnone ⟨b, hb, hbad⟩
    have hne : branches ≠ [] := List.ne_nil_of_mem hb₁
    cases room with
    | zero => exact (Nat.not_lt_zero _ hroom).elim
    | succ room =>
      have hchild : ∀ b ∈ branches, ∀ u ∈ b.products, f.Shows (some id) u ∧ u.height < room :=
        fun b hb u hu => product_below ht hb hu hroom
      have hfraction : ∀ b ∈ branches, ∀ g ts, Grown f g ts →
          g.branchingFraction b.id = f.branchingFraction b.id := by
        intro b hb g ts hg
        exact ht.branchingFraction_grown hg (Tree.branch_mem_decayIds hb)
      have hfail : (branches.mapM fun b => expandDecay (expandFrom room) id b.id).Refused f
          (f.FaultBelow (.node id type params branches)) := on_mapM_refused _
        (fun b => (∃ x, f.branchingFraction b.id = .ok x) ∧ ∀ u ∈ b.products, f.Weighable u) hf
        (fun b hb hgood g ts hg => by
          obtain ⟨⟨x, hx⟩, hproducts⟩ := hgood
          rw [← hfraction b hb g ts hg] at hx
          obtain ⟨h, us, hrun, hh, -⟩ := on_expandDecay hg.linked (.refl g.fractionOf)
            (hg.stay ht) hb hx fun u hu k vs hk => by
              obtain ⟨hu', hheight⟩ := hchild b hb u hu
              have hgk := hg.trans hk
              exact on_expandFrom hgk.linked (fractionOf_congr hk.database) (hgk.stay hu') hheight
                ((hu'.weighable_grown hgk).mpr (hproducts u hu))
          exact ⟨_, h, us, hrun, hh⟩)
        (fun b hb hbad g ts hg => by
          refine on_expandDecay_refused hg.linked (hg.stay ht) hb ?_ (fun e he => ?_)
            (fun u hu hw k vs hk => ?_) fun u hu hw k vs hk => ?_
          · rw [hfraction b hb g ts hg]
            refine fun ⟨hx, hall⟩ => hbad ⟨hx, fun u hu => ?_⟩
            exact ((hchild b hb u hu).1.weighable_grown hg).mp (hall u hu)
          · rw [hfraction b hb g ts hg] at he
            exact ⟨b.id, Tree.branch_mem_decayIds hb, he⟩
          · obtain ⟨hu', hheight⟩ := hchild b hb u hu
            have hgk := hg.trans hk
            obtain ⟨h, us, vs, hrun, hh, -⟩ := on_expandFrom hgk.linked (.refl k.fractionOf)
              (hgk.stay hu') hheight (((hg.stay hu').weighable_grown hk).mpr hw)
            exact ⟨_, h, vs, hrun, hh⟩
          · obtain ⟨hu', hheight⟩ := hchild b hb u hu
            have hgk := hg.trans hk
            refine (ih b hb u hu hgk.linked (hgk.stay hu') hheight
              fun hk' => hw (((hg.stay hu').weighable_grown hk).mp hk')).imp fun e => ?_
            rintro ⟨d, hd, he⟩
            rw [hu'.branchingFraction_grown hgk hd] at he
            have hchildren : u ∈ (Tree.node id type params branches).children :=
              Tree.mem_children.mpr ⟨b, hb, hu⟩
            exact ⟨d, Tree.decayIds_subset_of_mem_children hchildren hd, he⟩)
        ⟨b₁, hb₁, hbad⟩
      obtain ⟨e, h, us, hrun, hh, he⟩ := hfail
      refine ⟨e, h, us, ?_, hh, he⟩
      rw [Tree.id_node, on_expandFrom_node ht hne]
      exact on_bind_of_error hrun

/-- An expansion goes by the height of the tree, then by the count of its alternatives. -/
theorem on_expand_eq {limit : Nat} (hf : Linked f) (ht : f.Shows parent t) : (expand t.id limit).on f =
    if maxDepth < t.height then (.error (.tooDeep (f.label t.id) t.height), f)
    else if limit < t.count then (.error (.tooManyAlternatives (f.label t.id) t.count limit), f)
    else (expandFrom (maxDepth + 1) t.id).on f := by
  unfold expand
  split
  · next hheight => exact on_bind_of_error (by rw [on_ask, ht.tree_eq hf, if_pos hheight])
  · next hheight =>
    rw [on_bind_of_ok (a := t) (g := f) (by rw [on_ask, ht.tree_eq hf, if_neg hheight])]
    dsimp only
    split <;> rfl

/-- Where the tree is not too high, the alternatives are not too many and no branching fraction is at
fault, an expansion answers with all alternatives. -/
theorem on_expand {limit : Nat} (hf : Linked f) (ht : f.Shows parent t) (hlimit : limit < maxCount)
    (hheight : t.height ≤ maxDepth) (hcount : t.alternatives.length ≤ limit)
    (hw : f.Weighable t) :
    ∃ g us vs, (expand t.id limit).on f = (.ok (us.map (Tree.asAlternative f.fractionOf)), g) ∧
      Grown f g vs ∧ Yields t us vs := by
  rw [on_expand_eq hf ht, if_neg (Nat.not_lt_of_le hheight),
    if_neg ((t.lt_count_iff hlimit).not.mpr (Nat.not_lt_of_le hcount))]
  exact on_expandFrom hf rfl ht (Nat.lt_succ_of_le hheight) hw

/-- In any other case it is refused. -/
theorem on_expand_refused {limit : Nat} (hf : Linked f) (ht : f.Shows parent t)
    (hlimit : limit < maxCount)
    (hbad : ¬ (t.height ≤ maxDepth ∧ t.alternatives.length ≤ limit ∧ f.Weighable t)) :
    ∃ e g, (expand t.id limit).on f = (.error e, g) := by
  rw [on_expand_eq hf ht]
  split
  · exact ⟨_, _, rfl⟩
  · next hheight =>
    split
    · exact ⟨_, _, rfl⟩
    · next hcount =>
      rw [t.lt_count_iff hlimit] at hcount
      obtain ⟨e, g, -, hrun, -⟩ := on_expandFrom_refused hf ht
        (Nat.lt_succ_of_le (Nat.le_of_not_lt hheight))
        fun hw => hbad ⟨Nat.le_of_not_lt hheight, Nat.le_of_not_lt hcount, hw⟩
      exact ⟨e, g, hrun⟩

/-- An expansion that succeeds has passed all checks. -/
theorem expandFrom_of_expand {limit : Nat} {as : List Alternative} (hf : Linked f)
    (ht : f.Shows parent t) (hrun : (expand t.id limit).on f = (.ok as, g)) :
    t.height ≤ maxDepth ∧ f.Weighable t ∧ (expandFrom (maxDepth + 1) t.id).on f = (.ok as, g) := by
  rw [on_expand_eq hf ht] at hrun
  split at hrun
  · cases hrun
  · next hheight =>
    split at hrun
    · cases hrun
    · refine ⟨Nat.le_of_not_lt hheight, Classical.by_contradiction fun hw => ?_, hrun⟩
      obtain ⟨e, k, -, hfail, -⟩ :=
        on_expandFrom_refused hf ht (Nat.lt_succ_of_le (Nat.le_of_not_lt hheight)) hw
      cases hrun.symm.trans hfail

/-- An expansion that succeeds answers with all alternatives. -/
theorem expand_eq_ok {limit : Nat} {as : List Alternative} (hf : Linked f) (ht : f.Shows parent t)
    (hrun : (expand t.id limit).on f = (.ok as, g)) :
    t.height ≤ maxDepth ∧ f.Weighable t ∧ ∃ us vs, as = us.map (Tree.asAlternative f.fractionOf) ∧
      Grown f g vs ∧ Yields t us vs := by
  obtain ⟨hheight, hw, hrun⟩ := expandFrom_of_expand hf ht hrun
  obtain ⟨g', us, vs, hrun', hg, hyields⟩ :=
    on_expandFrom hf rfl ht (Nat.lt_succ_of_le hheight) hw
  cases hrun.symm.trans hrun'
  exact ⟨hheight, hw, us, vs, rfl, hg, hyields⟩

end Edit

namespace Yields

variable {f g : Forest} {parent : Option ParticleId} {t u : Tree} {us vs : List Tree}

theorem mem_alternatives (hy : Yields t us vs) (hu : u ∈ us) : u.shape ∈ t.alternatives :=
  hy.shapes ▸ List.mem_map_of_mem hu

/-- What is answered stands in the forest afterwards. -/
theorem shown (hy : Yields t us vs) (hg : Forest.Grown f g vs) (ht : f.Shows parent t) (hu : u ∈ us) :
    ∃ parent, g.Shows parent u := by
  rcases hy.own with rfl | ⟨rfl, -⟩
  · exact ⟨none, hg.shows hu⟩
  · exact ⟨parent, List.mem_singleton.mp hu ▸ hg.stay ht⟩

/-- What is answered reads back. -/
theorem tree_eq (hy : Yields t us vs) (hg : Forest.Grown f g vs) (ht : f.Shows parent t)
    (hheight : t.height ≤ maxDepth) (hu : u ∈ us) : g.tree u.id = .ok u := by
  obtain ⟨parent, hshown⟩ := hy.shown hg ht hu
  have hle := Nat.le_trans (Tree.height_le_of_mem_alternatives (hy.mem_alternatives hu)) hheight
  exact hshown.tree_of_le hg.linked hle

end Yields

namespace Forest

variable {f : Forest} {p : ParticleId} {P : Particle}

/-- The expansion of a particle of a reachable forest succeeds exactly if no more than `maxDepth`
decays follow one another below it, the alternatives of its tree are within the limit, and no
branching fraction below it is at fault. The answers then read back as trees that have the shapes of
all alternatives, in order, and one decay at most for each particle. A limit is a machine word, and
all of these are below `maxCount`. -/
theorem Reachable.expand_enumerates {limit : Nat} (h : Reachable f) (hp : f.particle? p = some P)
    (hlimit : limit < maxCount) :
    ∃ t, f.Shows P.parent t ∧ t.id = p ∧
      ((∃ as g, (expand p limit).on f = (.ok as, g)) ↔
        (∃ n ≤ maxDepth, f.depth p = .ok n) ∧ t.alternatives.length ≤ limit ∧
          ∀ d ∈ t.decayIds, ∃ x, f.branchingFraction d = .ok x) ∧
      ∀ as g, (expand p limit).on f = (.ok as, g) → ∃ us, as.mapM (fun a => g.tree a.root) = .ok us ∧
        us.map Tree.shape = t.alternatives ∧ ∀ u ∈ us, u.Resolved := by
  have hf := h.linked
  obtain ⟨t, ht, rfl⟩ := hf.exists_tree hp
  have hdepth : (∃ n ≤ maxDepth, f.depth t.id = .ok n) ↔ t.height ≤ maxDepth := by
    rw [ht.depth_eq hf]
    constructor
    · rintro ⟨n, hn, heq⟩
      cases heq
      exact hn
    · exact fun hn => ⟨t.height, hn, rfl⟩
  refine ⟨t, ht, rfl, ?_, fun as g hrun => ?_⟩
  · rw [hdepth]
    constructor
    · rintro ⟨as, g, hrun⟩
      refine Classical.by_contradiction fun hbad => ?_
      obtain ⟨e, k, hfail⟩ := Edit.on_expand_refused hf ht hlimit hbad
      cases hrun.symm.trans hfail
    · rintro ⟨hheight, hcount, hw⟩
      obtain ⟨g, us, vs, hrun, -⟩ := Edit.on_expand hf ht hlimit hheight hcount hw
      exact ⟨_, g, hrun⟩
  · obtain ⟨hheight, -, us, vs, rfl, hg, hyields⟩ := Edit.expand_eq_ok hf ht hrun
    exact ⟨us, mapM_map_eq_ok fun u hu => hyields.tree_eq hg ht hheight hu, hyields.shapes,
      fun u hu => Tree.resolved_of_mem_alternatives (hyields.mem_alternatives hu)⟩

/-- A particle that decays in two ways. -/
def twoWays : Forest :=
  Operation.addDecay ⟨0, 0⟩ [] ∅ |>.after <| Operation.addDecay ⟨0, 0⟩ [⟨1, 0⟩] ∅ |>.after <|
    Operation.addParticle "b" ∅ |>.after <| Operation.addParticle "a" ∅ |>.after {}

theorem reachable_twoWays : Reachable twoWays :=
  .step _ (.step _ (.step _ (.step _ (.empty {}) trivial) trivial) trivial) trivial

theorem expand_enumerates_twoWays :
    ∃ t, twoWays.Shows none t ∧ t.id = ⟨0, 0⟩ ∧
      ∀ as g, (expand ⟨0, 0⟩ 2).on twoWays = (.ok as, g) →
        ∃ us, as.mapM (fun a => g.tree a.root) = .ok us ∧ us.map Tree.shape = t.alternatives := by
  obtain ⟨t, ht, hid, -, hanswers⟩ := reachable_twoWays.expand_enumerates
    (show twoWays.particle? ⟨0, 0⟩ = some ⟨"a", ∅, none, [⟨0, 0⟩, ⟨1, 0⟩], 0⟩ from rfl)
    (show 2 < maxCount by decide)
  refine ⟨t, ht, hid, fun as g hrun => ?_⟩
  obtain ⟨us, hread, hshapes, -⟩ := hanswers as g hrun
  exact ⟨us, hread, hshapes⟩

end Forest

end DecayForest
