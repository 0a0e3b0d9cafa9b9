import DecayForest.Group.Expansion
import DecayForest.Proofs.Forest.Refusal
import DecayForest.Proofs.Group.Showing
/-!
# Groups and their expansions

What makes a group fit to be shown and written is in its trees: each root has one, which is not too high
and has only names that can be written (`Group.Stands`). A document gives such a group, and so it stays
through any number of expansions, since these make its forest grow and leave everything else alone
(`Stands.expandsTo`). The alternatives that they answer with have the shapes of alternatives of the
roots, whatever has been copied and discarded on the way (`Stands.expand_offers`).
-/

namespace DecayForest

open Grammar

namespace Forest

variable {f g : Forest} {parent : Option ParticleId} {t : Tree} {ts : List Tree} {a : Alternative}
  {as : List Alternative} {roots : List ParticleId} {good : Tree → Prop} {limit : Nat}
  {e : ModelError}

/-- An alternative of the tree `t` stands in a forest. -/
def Offers (f : Forest) (t : Tree) (a : Alternative) : Prop :=
  ∃ u parent, f.Shows parent u ∧ u.id = a.root ∧ u.shape ∈ t.alternatives

theorem Grown.offers (hg : Grown f g ts) (h : f.Offers t a) : g.Offers t a := by
  obtain ⟨u, parent, hu, hroot, hshape⟩ := h
  exact ⟨u, parent, hg.stay hu, hroot, hshape⟩

theorem Offers.tree (h : f.Offers t a) (hf : Linked f) (hheight : t.height ≤ maxDepth) :
    ∃ u parent, f.tree a.root = .ok u ∧ f.Shows parent u ∧ u.shape ∈ t.alternatives := by
  obtain ⟨u, parent, hu, hroot, hshape⟩ := h
  have hle := Nat.le_trans (Tree.height_le_of_mem_alternatives hshape) hheight
  exact ⟨u, parent, hroot ▸ hu.tree_of_le hf hle, hu, hshape⟩

theorem exists_alternativesOutline (h : ∀ a ∈ as, ∃ drawing, f.outline a.root = .ok drawing) :
    ∃ drawing, f.alternativesOutline as = .ok drawing := by
  have hitem : ∀ a ∈ as, ∃ item, (do
      let weight := " (p = " ++ Drawing.probability a.probability ++ ")"
      return Drawing.appended weight (← f.outline a.root) : Except ModelError Outline) =
        .ok item := by
    intro a ha
    obtain ⟨drawing, hdrawing⟩ := h a ha
    exact ⟨_, by rw [hdrawing]; rfl⟩
  obtain ⟨items, hitems, -⟩ := mapM_eq_ok hitem
  exact ⟨.node (toString as.length ++ " alternative trees") items, by
    rw [alternativesOutline, hitems]; rfl⟩

/-- However an expansion ends, the forest has only grown. -/
theorem Linked.expand_grown (hf : Linked f) (ht : f.Shows parent t) (limit : Nat) :
    ∃ ts, Grown f ((expand t.id limit).on f).2 ts := by
  rcases hrun : (expand t.id limit).on f with ⟨e | as, g⟩
  · rcases hf.expand_error ht hrun with ⟨rfl, -⟩ | ⟨-, ts, hg⟩
    · exact ⟨[], .refl hf⟩
    · exact ⟨ts, hg⟩
  · obtain ⟨-, -, us, vs, -, hg, -⟩ := Edit.expand_eq_ok hf ht hrun
    exact ⟨vs, hg⟩

theorem Linked.expand_offers (hf : Linked f) (ht : f.Shows parent t)
    (hrun : (expand t.id limit).on f = (.ok as, g)) : ∀ a ∈ as, g.Offers t a := by
  obtain ⟨-, -, us, vs, rfl, hg, hyields⟩ := Edit.expand_eq_ok hf ht hrun
  intro a ha
  obtain ⟨u, hu, rfl⟩ := List.mem_map.mp ha
  obtain ⟨parent, hshown⟩ := hyields.shown hg ht hu
  exact ⟨u, parent, hshown, rfl, hyields.mem_alternatives hu⟩

/-- A tree is refused its expansion for what is in it, never for a handle. -/
theorem Linked.expand_alive (hf : Linked f) (ht : f.Shows parent t)
    (hrun : (expand t.id limit).on f = (.error e, g)) : ¬ e.isDeadHandle := by
  rcases hf.expand_error ht hrun with ⟨-, ⟨n, rfl⟩ | ⟨n, rfl⟩⟩ | ⟨hfault, -⟩
  · exact Bool.false_ne_true
  · exact Bool.false_ne_true
  · obtain ⟨_, _, _, v, -, -, -, -, -, rfl⟩ := hf.faultBelow_error ht hfault
    exact Bool.false_ne_true

/-! ### Several roots -/

theorem Grown.plants (hg : Grown f g ts) (h : f.Plants good roots) : g.Plants good roots := by
  intro r hr
  obtain ⟨t, ht, htop⟩ := h r hr
  exact ⟨t, hg.stay ht, htop⟩

theorem expandEach_cons (r : ParticleId) (roots : List ParticleId) (limit : Nat) :
    Group.expandEach limit (r :: roots) = do
      let as ← expand r limit
      let es ← Group.expandEach limit roots
      return ⟨r, as⟩ :: es := by
  unfold Group.expandEach
  rw [List.mapM_cons, bind_assoc]
  simp only [pure_bind]

/-- The roots are expanded one after the other in a forest that keeps growing. So all of them still have
their trees when it is their turn, and what is answered for one stays while the next are expanded. -/
theorem Linked.expandEach_cases (hf : Linked f) (hroots : f.Plants good roots) (limit : Nat) :
    (∃ e g ts, (Group.expandEach limit roots).on f = (.error e, g) ∧ Grown f g ts ∧
      ¬ e.isDeadHandle) ∨
    ∃ es g ts, (Group.expandEach limit roots).on f = (.ok es, g) ∧ Grown f g ts ∧
      ∀ x ∈ es, ∃ t, good t ∧ ∀ a ∈ x.alternatives, g.Offers t a := by
  induction roots generalizing f with
  | nil => exact .inr ⟨[], f, [], rfl, .refl hf, nofun⟩
  | cons r roots ih =>
    obtain ⟨⟨t, ht, rfl, hgood⟩, hrest⟩ := List.forall_mem_cons.mp hroots
    obtain ⟨ts, hg⟩ := hf.expand_grown ht limit
    rw [expandEach_cons]
    rcases hrun : (expand t.id limit).on f with ⟨e | as, g⟩ <;> rw [hrun] at hg
    · exact .inl ⟨e, g, ts, Edit.on_bind_of_error hrun, hg, hf.expand_alive ht hrun⟩
    · rw [Edit.on_bind_of_ok hrun]
      rcases ih hg.linked (hg.plants hrest) with
        ⟨e, h, us, hruns, hh, he⟩ | ⟨es, h, us, hruns, hh, hes⟩
      · exact .inl ⟨e, h, ts ++ us, Edit.on_bind_of_error hruns, hg.trans hh, he⟩
      · refine .inr ⟨⟨t.id, as⟩ :: es, h, ts ++ us, Edit.on_bind_of_ok hruns, hg.trans hh, ?_⟩
        refine List.forall_mem_cons.mpr ⟨⟨t, hgood, fun a ha => ?_⟩, hes⟩
        exact hh.offers (hf.expand_offers ht hrun a ha)

end Forest

namespace Group

open Forest

variable {g h : Group} {limit : Nat} {es : List Expansion} {database : Database} {source : String}
  {ts : List Tree} {f : Forest}

theorem Stands.grown (hg : g.Stands) (hf : Grown g.forest f ts) : { g with forest := f }.Stands where
  linked := hf.linked
  rooted := hf.plants hg.rooted
  params := hg.params

/-! ### Expansions of a group -/

/-- A group once its roots have been expanded, as far as that went. -/
def expanded (g : Group) (limit : Nat) : Group :=
  { g with forest := ((expandEach limit g.roots).on g.forest).2 }

/-- What becomes of a group as its roots are expanded again and again, also where that is refused. -/
inductive ExpandsTo (g : Group) : Group → Prop
  | refl : ExpandsTo g g
  | expand {h : Group} (limit : Nat) : ExpandsTo g h → ExpandsTo g (h.expanded limit)

theorem expand_eq (g : Group) (limit : Nat) : g.expand limit =
    (((expandEach limit g.roots).on g.forest).1).map fun es => (g.expanded limit, es) := by
  unfold expand expanded Edit.on
  rcases (expandEach limit g.roots).run.run g.forest with ⟨e | es, f⟩ <;> rfl

theorem Stands.expanded (hg : g.Stands) (limit : Nat) : (g.expanded limit).Stands := by
  unfold Group.expanded
  rcases hg.linked.expandEach_cases hg.rooted limit with ⟨e, f, ts, hrun, hf, -⟩ |
    ⟨es, f, ts, hrun, hf, -⟩ <;> rw [hrun] <;> exact hg.grown hf

theorem Stands.expandsTo (hg : g.Stands) (hh : g.ExpandsTo h) : h.Stands := by
  induction hh with
  | refl => exact hg
  | expand limit _ ih => exact ih.expanded limit

theorem Stands.expand_error (hg : g.Stands) {e : ModelError} (h : g.expand limit = .error e) :
    ¬ e.isDeadHandle := by
  rw [expand_eq] at h
  rcases hg.linked.expandEach_cases hg.rooted limit with ⟨e', f, ts, hrun, -, he⟩ |
    ⟨es, f, ts, hrun, -⟩ <;> rw [hrun] at h <;> cases h
  exact he

/-- The answers of an expansion stand in the group that it leaves. -/
theorem Stands.expand_offers (hg : g.Stands) (hrun : g.expand limit = .ok (h, es)) :
    h.Stands ∧ ∀ x ∈ es, ∃ t, (t.height ≤ maxDepth ∧ t.Worded Quotable) ∧
      ∀ a ∈ x.alternatives, h.forest.Offers t a := by
  rw [expand_eq] at hrun
  have hstands := hg.expanded limit
  unfold Group.expanded at hrun hstands
  rcases hg.linked.expandEach_cases hg.rooted limit with ⟨e, f, ts, heach, -⟩ |
    ⟨es', f, ts, heach, -, hoffers⟩ <;> rw [heach] at hrun hstands <;> cases hrun
  exact ⟨hstands, hoffers⟩

theorem Stands.expand_written (hg : g.Stands) (hrun : g.expand limit = .ok (h, es)) :
    ∀ x ∈ es, ∀ a ∈ x.alternatives, ∃ text, h.forest.written a.root = .ok text := by
  obtain ⟨hh, hoffers⟩ := hg.expand_offers hrun
  intro x hx a ha
  obtain ⟨t, ⟨hheight, hworded⟩, has⟩ := hoffers x hx
  obtain ⟨u, parent, htree, hu, hshape⟩ := (has a ha).tree hh.linked hheight
  exact Forest.exists_written htree hu (Tree.all_of_mem_alternatives hshape hworded)

theorem Stands.expand_drawn (hg : g.Stands) (hrun : g.expand limit = .ok (h, es)) :
    ∀ x ∈ es, ∃ drawing, h.forest.alternativesOutline x.alternatives = .ok drawing := by
  obtain ⟨hh, hoffers⟩ := hg.expand_offers hrun
  intro x hx
  obtain ⟨t, ⟨hheight, -⟩, has⟩ := hoffers x hx
  refine exists_alternativesOutline fun a ha => ?_
  obtain ⟨u, -, htree, -⟩ := (has a ha).tree hh.linked hheight
  exact Forest.exists_outline htree

/-- What is read can be written and drawn, at first and after any expansions. What an expansion answers
with can be written and drawn, too. -/
theorem written_and_drawn (hg : Group.read database source = .ok g) (hh : g.ExpandsTo h) :
    (∃ text, h.written = .ok text) ∧ (∃ drawing, h.outline = .ok drawing) ∧
    ∀ limit h' es, h.expand limit = .ok (h', es) → ∀ x ∈ es,
      (∀ a ∈ x.alternatives, ∃ text, h'.forest.written a.root = .ok text) ∧
      ∃ drawing, h'.forest.alternativesOutline x.alternatives = .ok drawing := by
  have hstands := (stands_of_read hg).expandsTo hh
  exact ⟨hstands.exists_written, hstands.exists_outline, fun limit h' es hrun x hx =>
    ⟨hstands.expand_written hrun x hx, hstands.expand_drawn hrun x hx⟩⟩

/-- A particle that decays in two ways. -/
def twoDecays : Group where
  forest := Operation.addDecay ⟨0, 0⟩ [⟨2, 0⟩] ∅ |>.after <|
    Operation.addParticle "C" ∅ |>.after <|
    Operation.addDecay ⟨0, 0⟩ [⟨1, 0⟩] ∅ |>.after <|
    Operation.addParticle "B" ∅ |>.after <|
    Operation.addParticle "A" ∅ |>.after {}
  roots := [⟨0, 0⟩]

theorem read_twoDecays : Group.read {} "A -> \x7b B \x7d; A -> \x7b C \x7d" = .ok twoDecays := by
  have hbuilt : ofStatements {} [.edge "A" ["B"] ∅, .edge "A" ["C"] ∅] = .ok twoDecays :=
    ofStatements_of_build (Building.on_build_eq_ok.mpr
      ⟨{}, [], _, rfl, rfl, rfl, List.forall_mem_singleton.mpr rfl⟩)
  exact read_eq_ok.mpr
    ⟨[⟨⟨1, 1⟩, .edge "A" ["B"] ∅⟩, ⟨⟨1, 13⟩, .edge "A" ["C"] ∅⟩], rfl, hbuilt⟩

theorem written_and_drawn_twoDecays :
    ∃ h a b, Group.read {} "A -> \x7b B \x7d; A -> \x7b C \x7d" = .ok twoDecays ∧
      twoDecays.expand 2 = .ok (h, [⟨⟨0, 0⟩, [a, b]⟩]) ∧
      (∃ text, h.forest.written a.root = .ok text) ∧ ∃ text, h.forest.written b.root = .ok text := by
  have hcount : (twoDecays.expand 2).toOption.map (fun r => r.2.map fun x =>
      (x.root, x.alternatives.length)) = some [(⟨0, 0⟩, 2)] := by decide +kernel
  rcases hrun : twoDecays.expand 2 with e | ⟨h, es⟩ <;> rw [hrun] at hcount
  · cases hcount
  obtain ⟨⟨r, as⟩, rfl, heq⟩ := List.map_eq_singleton_iff.mp (Option.some.inj hcount)
  obtain ⟨rfl, hlen⟩ := Prod.mk.inj heq
  obtain ⟨a, b, rfl⟩ := List.length_eq_two.mp hlen
  have htexts := ((written_and_drawn read_twoDecays .refl).2.2 2 _ _ hrun _ (List.mem_singleton_self _)).1
  exact ⟨h, a, b, read_twoDecays, rfl, htexts a List.mem_cons_self,
    htexts b (List.mem_cons_of_mem _ List.mem_cons_self)⟩

end Group

end DecayForest
