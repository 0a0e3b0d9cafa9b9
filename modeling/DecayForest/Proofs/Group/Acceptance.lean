import DecayForest.Proofs.Group.Passes
/-!
# Accepted documents

A list of statements makes a group exactly if it describes a forest: types are texts, no identifier is
a target twice, no identifier feeds itself, and no chain of decays is too long. What is refused is
refused for the first of these that fails (`ofStatements_outcome`). The checks on the way are made
one decay at a time, so the proof goes by what has been built up to then (`Built`).
-/

namespace DecayForest

theorem exists_rel_of_isChain {α : Type} {R : α → α → Prop} {x y : α} {l : List α}
    (h : (x :: l).IsChain R) (hy : y ∈ l) : ∃ z, R z y := by
  induction l generalizing x with
  | nil => cases hy
  | cons a l ih =>
    obtain ⟨hxa, hchain⟩ := List.isChain_cons_cons.mp h
    cases hy with
    | head => exact ⟨x, hxa⟩
    | tail _ hy => exact ih hchain hy

namespace Building

open Forest Edit

variable {f : Forest} {names : Names} {table : Table} {edges : List Edge}
  {statements : List Statement} {found : List ParticleId} {a b : String}

theorem mentioned_of_feeds (h : Feeds statements a b) :
    a ∈ statements.flatMap mentioned ∧ b ∈ statements.flatMap mentioned := by
  obtain ⟨targets, params, hs, hb⟩ := h
  exact ⟨List.mem_flatMap.mpr ⟨_, hs, List.mem_cons_self⟩,
    List.mem_flatMap.mpr ⟨_, hs, List.mem_cons_of_mem a hb⟩⟩

namespace Built

variable (hb : Built f names table edges)
include hb

/-- Roots are found for all that is mentioned. They are live and without a parent. -/
theorem exists_roots (statements : List Statement) :
    ∃ found, roots f names statements = .ok found ∧
      (∀ r ∈ found, ∃ R, f.particle? r = some R ∧ R.parent = none) ∧
      ∀ a ∈ statements.flatMap mentioned, ∀ p, names.lookup a = some p →
        ∃ r ∈ found, f.Above r p := by
  let ids := (statements.flatMap mentioned).filterMap fun name => names.lookup name
  have hroot : ∀ x ∈ ids, ∃ r R, f.rootOf x = .ok r ∧ f.Above r x ∧ f.particle? r = some R ∧
      R.parent = none := by
    intro x hx
    obtain ⟨a, -, ha⟩ := List.mem_filterMap.mp hx
    obtain ⟨X, hX⟩ := hb.live ha
    exact hb.linked.rootOf_eq hX
  obtain ⟨rs, hrs, hall⟩ := mapM_eq_ok (l := ids) fun x hx => show ∃ r, f.rootOf x = .ok r by
    obtain ⟨r, -, hr, -⟩ := hroot x hx
    exact ⟨r, hr⟩
  refine ⟨rs.eraseDups, ?_, fun r hr => ?_, fun a ha p hp => ?_⟩
  · unfold roots
    show (ids.mapM f.rootOf >>= fun rs => pure rs.eraseDups) = _
    rw [hrs]
    rfl
  · obtain ⟨x, hx, hxr⟩ := exists_left_of_forall₂ hall (List.mem_eraseDups.mp hr)
    obtain ⟨r', R, hr', -, hR, hnone⟩ := hroot x hx
    cases hxr.symm.trans hr'
    exact ⟨R, hR, hnone⟩
  · have hx : p ∈ ids := List.mem_filterMap.mpr ⟨a, ha, hp⟩
    obtain ⟨r, hr, hpr⟩ := exists_right_of_forall₂ hall hx
    obtain ⟨r', R, hr', habove, -⟩ := hroot p hx
    cases (show f.rootOf p = .ok r from hpr).symm.trans hr'
    exact ⟨r, List.mem_eraseDups.mpr hr, habove⟩

/-- A way down in the forest is a chain of identifiers. -/
theorem exists_names {xs : List ParticleId} (hxs : xs.IsChain f.ParentOf)
    (hlive : ∀ x ∈ xs, ∃ X, f.particle? x = some X) :
    ∃ chain : List String, chain.IsChain (Leads edges) ∧
      List.Forall₂ (fun a x => names.lookup a = some x) chain xs := by
  induction xs with
  | nil => exact ⟨[], .nil, .nil⟩
  | cons x xs ih =>
    obtain ⟨X, hX⟩ := hlive x List.mem_cons_self
    obtain ⟨a, ha⟩ := hb.onto hX
    obtain ⟨chain, hchain, hnames⟩ := ih hxs.tail fun y hy => hlive y (List.mem_cons_of_mem x hy)
    cases hnames with
    | nil => exact ⟨[a], .singleton a, .cons ha .nil⟩
    | @cons b y chain ys hby hnames =>
      obtain ⟨a', b', ha', hb', hlead⟩ := hb.parentOf_iff.mp (List.isChain_cons_cons.mp hxs).1
      cases hb.injective ha ha'
      cases hb.injective hby hb'
      exact ⟨a :: b :: chain, List.isChain_cons_cons.mpr ⟨hlead, hchain⟩,
        .cons ha (.cons hby hnames)⟩

/-- A chain of identifiers is a way down in the forest. -/
theorem exists_particles {p : ParticleId} {chain : List String}
    (hchain : (a :: chain).IsChain (Leads edges)) (ha : names.lookup a = some p) :
    ∃ xs : List ParticleId, (p :: xs).IsChain f.ParentOf ∧ xs.length = chain.length := by
  induction chain generalizing a p with
  | nil => exact ⟨[], .singleton p, rfl⟩
  | cons b chain ih =>
    obtain ⟨hab, hchain⟩ := List.isChain_cons_cons.mp hchain
    obtain ⟨q, hq⟩ := hb.target hab
    obtain ⟨xs, hxs, hlen⟩ := ih hchain hq
    refine ⟨q :: xs, List.isChain_cons_cons.mpr ⟨?_, hxs⟩, by rw [List.length_cons, hlen]; rfl⟩
    exact hb.parentOf_iff.mpr ⟨a, b, ha, hq, hab⟩

end Built

theorem isChain_above {r p : ParticleId} {xs : List ParticleId} (h : f.Above r p)
    (hxs : (p :: xs).IsChain f.ParentOf) :
    ∃ ys : List ParticleId, (r :: ys).IsChain f.ParentOf ∧ xs.length ≤ ys.length := by
  induction h using Relation.ReflTransGen.head_induction_on with
  | refl => exact ⟨xs, hxs, Nat.le_refl _⟩
  | @head x y hxy _ ih =>
    obtain ⟨ys, hys, hlen⟩ := ih
    exact ⟨y :: ys, List.isChain_cons_cons.mpr ⟨hxy, hys⟩, Nat.le_succ_of_le hlen⟩

/-- Chains of identifiers are short exactly if the trees of all roots are low. -/
theorem Built.shallow_iff (hb : Built f names table (edgesFrom ∅ statements))
    (hfound : roots f names statements = .ok found) :
    Shallow statements ↔ ∀ r ∈ found, f.checkDepth r = .ok () := by
  obtain ⟨found', hfound', hroots, hmentioned⟩ := hb.exists_roots statements
  cases hfound.symm.trans hfound'
  have hleads : Leads (edgesFrom ∅ statements) = Feeds statements := by
    funext a b
    exact propext leads_edgesFrom
  constructor
  · intro hshallow r hr
    obtain ⟨R, hR, -⟩ := hroots r hr
    obtain ⟨t, ht, rfl⟩ := hb.linked.exists_tree hR
    obtain ⟨l, hl, hlen⟩ := ht.exists_chain
    obtain ⟨chain, hchain, hnames⟩ := hb.exists_names hl fun x hx => by
      rcases List.mem_cons.mp hx with rfl | hx
      · exact ⟨R, hR⟩
      · obtain ⟨y, hy⟩ := exists_rel_of_isChain hl hx
        exact hy.live
    have hshort := hshallow chain (hleads ▸ hchain)
    rw [hnames.length_eq, List.length_cons, hlen] at hshort
    rw [ht.checkDepth_eq hb.linked, if_neg (Nat.not_lt_of_le (Nat.le_of_succ_le_succ hshort))]
  · intro hlow chain hchain
    rcases chain with _ | ⟨a, _ | ⟨b, chain⟩⟩
    · exact Nat.zero_le _
    · exact Nat.succ_le_succ (Nat.zero_le _)
    · have hab := (List.isChain_cons_cons.mp hchain).1
      rw [← hleads] at hchain hab
      obtain ⟨e, he, rfl, -⟩ := id hab
      obtain ⟨p, hp⟩ := hb.source he
      obtain ⟨xs, hxs, hlen⟩ := hb.exists_particles hchain hp
      obtain ⟨r, hr, habove⟩ := hmentioned _ (mentioned_of_feeds (hleads ▸ hab)).1 p hp
      obtain ⟨R, hR, -⟩ := hroots r hr
      obtain ⟨t, ht, rfl⟩ := hb.linked.exists_tree hR
      obtain ⟨ys, hys, hle⟩ := isChain_above habove hxs
      have hheight := ht.length_le_height hb.linked hys
      have hcheck := hlow t.id hr
      rw [ht.checkDepth_eq hb.linked] at hcheck
      split at hcheck
      · cases hcheck
      · next hlt =>
        rw [List.length_cons, ← hlen]
        omega

/-- Every root is looked at until one is refused. -/
theorem on_forM_ask {α : Type} (check : Forest → α → Except ModelError Unit) (l : List α)
    (f : Forest) :
    ((l.forM fun a => ask (check · a)).on f = (.ok (), f) ∧ ∀ a ∈ l, check f a = .ok ()) ∨
    ∃ e, (l.forM fun a => ask (check · a)).on f = (.error e, f) ∧ ∃ a ∈ l, check f a = .error e := by
  induction l with
  | nil => exact .inl ⟨rfl, nofun⟩
  | cons a l ih =>
    show ((ask (check · a) >>= fun _ => l.forM _).on f = _ ∧ _) ∨
      ∃ e, (ask (check · a) >>= fun _ => l.forM _).on f = _ ∧ _
    rcases ha : check f a with e | ⟨⟩
    · refine .inr ⟨e, on_bind_of_error ?_, a, List.mem_cons_self, ha⟩
      rw [on_ask, ha]
    · have hrun : (ask (check · a)).on f = (.ok (), f) := by rw [on_ask, ha]
      rw [on_bind_of_ok hrun]
      rcases ih with ⟨hok, hall⟩ | ⟨e, herror, c, hc, hce⟩
      · exact .inl ⟨hok, List.forall_mem_cons.mpr ⟨ha, hall⟩⟩
      · exact .inr ⟨e, herror, c, List.mem_cons_of_mem a hc, hce⟩

theorem foldlM_addRoot {g : Group} (found : List ParticleId)
    (h : ∀ r ∈ found, ∃ R, g.forest.particle? r = some R ∧ R.parent = none) :
    found.foldlM Group.addRoot g = .ok { g with roots := g.roots ++ found } := by
  induction found generalizing g with
  | nil => rw [List.append_nil]; rfl
  | cons r found ih =>
    obtain ⟨R, hR, hnone⟩ := h r List.mem_cons_self
    have hadd : g.addRoot r = .ok { g with roots := g.roots ++ [r] } := by
      simp only [Group.addRoot, hR, hnone]
      rfl
    rw [List.foldlM_cons, hadd]
    have hrest := ih (g := { g with roots := g.roots ++ [r] }) fun r' hr' =>
      h r' (List.mem_cons_of_mem r hr')
    refine hrest.trans ?_
    rw [List.append_assoc]
    rfl

/-- The passes succeed together. -/
theorem on_build_eq_ok {g : Forest} {s : List Statement} : (build s).on f = (.ok found, g) ↔
    ∃ f₁ names₁ names₂, (declareAll [] ∅ s).on f = (.ok names₁, f₁) ∧
      (connectAll names₁ ∅ ∅ s).on f₁ = (.ok names₂, g) ∧ roots g names₂ s = .ok found ∧
      ∀ r ∈ found, g.checkDepth r = .ok () := by
  constructor
  · intro h
    obtain ⟨names₁, f₁, hdeclare, h⟩ := on_bind_eq_ok.mp h
    obtain ⟨names₂, f₂, hconnect, h⟩ := on_bind_eq_ok.mp h
    obtain ⟨found', f₃, hask, h⟩ := on_bind_eq_ok.mp h
    obtain ⟨hroots, rfl⟩ := Prod.mk.inj ((on_ask _ _).symm.trans hask)
    obtain ⟨_, f₃, hcheck, h⟩ := on_bind_eq_ok.mp h
    cases h
    rcases on_forM_ask (fun f r => f.checkDepth r) found f₂ with ⟨hrun, hall⟩ | ⟨e, hrun, -⟩
    · cases hrun.symm.trans hcheck
      exact ⟨f₁, names₁, names₂, hdeclare, hconnect, hroots, hall⟩
    · cases hrun.symm.trans hcheck
  · rintro ⟨f₁, names₁, names₂, hdeclare, hconnect, hroots, hall⟩
    have hask : (ask (roots · names₂ s)).on g = (.ok found, g) := by rw [on_ask, hroots]
    rw [build, on_bind_of_ok hdeclare, on_bind_of_ok hconnect, on_bind_of_ok hask]
    rcases on_forM_ask (fun f r => f.checkDepth r) found g with ⟨hrun, -⟩ | ⟨e, -, r, hr, hre⟩
    · rw [on_bind_of_ok hrun]
      rfl
    · cases (hall r hr).symm.trans hre

/-- How the passes over the statements end, and why. -/
theorem build_cases (database : Database) (s : List Statement) :
    (∃ f names table found, (build s).on { database } = (.ok found, f) ∧
      declaredFrom (fun _ => none) ∅ s = .ok table ∧
      Built f names (mentionedFrom table ∅ s) (edgesFrom ∅ s) ∧ roots f names s = .ok found ∧
      WellTyped s ∧ SingleTargets s ∧ Acyclic s ∧ Shallow s) ∨
    ∃ e f, (build s).on { database } = (.error e, f) ∧
      ((∃ shown, e = .typeNotText shown) ∧ ¬ WellTyped s ∨
      e.isConsistency ∧ WellTyped s ∧ ¬ (SingleTargets s ∧ Acyclic s) ∨
      (∃ p n, e = .tooDeep p n) ∧ WellTyped s ∧ SingleTargets s ∧ Acyclic s ∧ ¬ Shallow s) := by
  have hleads : Leads (edgesFrom ∅ s) = Feeds s := by
    funext a b
    exact propext leads_edgesFrom
  rcases (Built.empty database).on_declareAll ∅ s with
    ⟨f₁, names₁, table, htable, hrun₁, hb₁⟩ | ⟨e, f₁, he, hrun₁⟩
  · rcases declaredFrom_cases (fun _ => none) ∅ s with ⟨-, -, htyped⟩ | ⟨⟨shown, he⟩, -⟩
    swap
    · cases htable.symm.trans he
    rcases hb₁.on_connectAll .nil ∅ ∅ s with
      ⟨f₂, names₂, hrun₂, hb₂, hsingle⟩ | ⟨e, f₂, hrun₂, he, hfault⟩
    · obtain ⟨found, hfound, -⟩ := hb₂.exists_roots s
      have hacyclic := hb₂.acyclic
      have hshallow := hb₂.shallow_iff hfound
      rw [List.nil_append, targets_edgesFrom] at hsingle
      rw [List.nil_append, hleads] at hacyclic
      have hask : (ask (roots · names₂ s)).on f₂ = (.ok found, f₂) := by rw [on_ask, hfound]
      rcases on_forM_ask (fun f r => f.checkDepth r) found f₂ with
        ⟨hrun₃, hall⟩ | ⟨e, hrun₃, r, hr, hre⟩
      · refine .inl ⟨f₂, names₂, table, found, ?_, htable, hb₂, hfound, htyped, hsingle, hacyclic,
          hshallow.mpr hall⟩
        rw [build, on_bind_of_ok hrun₁, on_bind_of_ok hrun₂, on_bind_of_ok hask,
          on_bind_of_ok hrun₃]
        rfl
      · refine .inr ⟨e, f₂, ?_, .inr (.inr ⟨?_, htyped, hsingle, hacyclic, fun h => ?_⟩)⟩
        · rw [build, on_bind_of_ok hrun₁, on_bind_of_ok hrun₂, on_bind_of_ok hask,
            on_bind_of_error hrun₃]
        · obtain ⟨R, hR, -⟩ := (hb₂.exists_roots s).elim fun found' h => by
            cases hfound.symm.trans h.1
            exact h.2.1 r hr
          obtain ⟨t, ht, rfl⟩ := hb₂.linked.exists_tree hR
          rw [ht.checkDepth_eq hb₂.linked] at hre
          split at hre <;> cases hre
          exact ⟨_, _, rfl⟩
        · cases (hshallow.mp h r hr).symm.trans hre
    · refine .inr ⟨e, f₂, ?_, .inr (.inl ⟨he, htyped, fun h => hfault ?_⟩)⟩
      · rw [build, on_bind_of_ok hrun₁, on_bind_of_error hrun₂]
      · rwa [List.nil_append, targets_edgesFrom, hleads]
  · rcases declaredFrom_cases (fun _ => none) ∅ s with ⟨t, ht, -⟩ | ⟨⟨shown, he'⟩, htyped⟩
    · cases he.symm.trans ht
    · cases he.symm.trans he'
      refine .inr ⟨_, f₁, ?_, .inl ⟨⟨shown, rfl⟩, htyped⟩⟩
      rw [build, on_bind_of_error hrun₁]

end Building

namespace Group

open Building

/-- What is built is the group. -/
theorem ofStatements_eq (database : Database) (s : List Statement) :
    ofStatements database s =
      match (build s).on { database } with
      | (.ok found, f) => .ok ⟨f, found, groupParams s⟩
      | (.error e, _) => .error e := by
  show (match (build s).on { database } with
    | (.ok roots, forest) => roots.foldlM addRoot ⟨forest, [], groupParams s⟩
    | (.error e, _) => .error e) = _
  rcases build_cases database s with ⟨f, names, table, found, hrun, -, hb, hfound, -⟩ | ⟨e, f, hrun, -⟩
  · obtain ⟨found', hfound', hroots, -⟩ := hb.exists_roots s
    cases hfound.symm.trans hfound'
    rw [hrun]
    exact foldlM_addRoot found hroots
  · rw [hrun]

theorem ofStatements_of_build {database : Database} {f : Forest} {s : List Statement}
    {found : List ParticleId} (h : (build s).on { database } = (.ok found, f)) :
    ofStatements database s = .ok ⟨f, found, groupParams s⟩ := by
  rw [ofStatements_eq, h]

/-- The group of some statements holds what they say. -/
theorem ofStatements_eq_ok {database : Database} {s : List Statement} {g : Group}
    (h : ofStatements database s = .ok g) :
    ∃ names table, declaredFrom (fun _ => none) ∅ s = .ok table ∧
      Built g.forest names (mentionedFrom table ∅ s) (edgesFrom ∅ s) ∧
      Building.roots g.forest names s = .ok g.roots ∧ g.params = groupParams s := by
  rw [ofStatements_eq] at h
  rcases build_cases database s with
    ⟨f, names, table, found, hrun, htable, hb, hfound, -⟩ | ⟨e, f, hrun, -⟩
  · rw [hrun] at h
    cases h
    exact ⟨names, table, htable, hb, hfound, rfl⟩
  · rw [hrun] at h
    cases h

theorem exists_ofStatements (database : Database) {s : List Statement} (htyped : WellTyped s)
    (hsingle : SingleTargets s) (hacyclic : Acyclic s) (hshallow : Shallow s) :
    ∃ g, ofStatements database s = .ok g := by
  rw [ofStatements_eq]
  rcases build_cases database s with ⟨f, names, table, found, hrun, -⟩ | ⟨e, f, -, hwhy⟩
  · rw [hrun]
    exact ⟨_, rfl⟩
  · rcases hwhy with ⟨-, hno⟩ | ⟨-, -, hno⟩ | ⟨-, -, -, -, hno⟩
    · exact absurd htyped hno
    · exact absurd ⟨hsingle, hacyclic⟩ hno
    · exact absurd hshallow hno

/-- Statements make a group exactly if they describe a forest. The error tells what is wrong: a type
first, then a target or a cycle, and a long chain only if it is all there is. -/
theorem ofStatements_outcome (database : Database) (s : List Statement) :
    ((∃ g, ofStatements database s = .ok g) ↔
      WellTyped s ∧ SingleTargets s ∧ Acyclic s ∧ Shallow s) ∧
    (¬ WellTyped s → ∃ shown, ofStatements database s = .error (.typeNotText shown)) ∧
    (WellTyped s → ¬ (SingleTargets s ∧ Acyclic s) →
      ∃ e, ofStatements database s = .error e ∧ e.isConsistency) ∧
    (WellTyped s → SingleTargets s → Acyclic s → ¬ Shallow s →
      ∃ p n, ofStatements database s = .error (.tooDeep p n)) := by
  rw [ofStatements_eq]
  rcases build_cases database s with
    ⟨f, names, table, found, hrun, -, -, -, htyped, hsingle, hacyclic, hshallow⟩ | ⟨e, f, hrun, hwhy⟩
  · rw [hrun]
    refine ⟨⟨fun _ => ⟨htyped, hsingle, hacyclic, hshallow⟩, fun _ => ⟨_, rfl⟩⟩, ?_, ?_, ?_⟩
    · exact fun h => absurd htyped h
    · exact fun _ h => absurd ⟨hsingle, hacyclic⟩ h
    · exact fun _ _ _ h => absurd hshallow h
  · rw [hrun]
    rcases hwhy with ⟨⟨shown, rfl⟩, htyped⟩ | ⟨he, htyped, hlinks⟩ |
      ⟨⟨p, n, rfl⟩, htyped, hsingle, hacyclic, hshallow⟩
    · refine ⟨⟨fun ⟨g, hg⟩ => (nomatch hg), fun h => absurd h.1 htyped⟩, fun _ => ⟨shown, rfl⟩, ?_, ?_⟩
      · exact fun h => absurd h htyped
      · exact fun h => absurd h htyped
    · refine ⟨⟨fun ⟨g, hg⟩ => (nomatch hg), fun h => absurd ⟨h.2.1, h.2.2.1⟩ hlinks⟩, ?_,
        fun _ _ => ⟨e, rfl, he⟩, fun _ hsingle hacyclic => absurd ⟨hsingle, hacyclic⟩ hlinks⟩
      exact fun h => absurd htyped h
    · refine ⟨⟨fun ⟨g, hg⟩ => (nomatch hg), fun h => absurd h.2.2.2 hshallow⟩, ?_, ?_,
        fun _ _ _ _ => ⟨p, n, rfl⟩⟩
      · exact fun h => absurd htyped h
      · exact fun _ h => absurd ⟨hsingle, hacyclic⟩ h

theorem ofStatements_outcome_selfEdge :
    ∃ e, ofStatements {} [.edge "a" ["a"] ∅] = .error e ∧ e.isConsistency := by
  have htyped : WellTyped [.edge "a" ["a"] ∅] := by
    intro before name params after h
    rcases before with _ | ⟨s, before⟩
    · cases h
    · have hnil := (List.cons.inj h).2
      exact absurd hnil.symm (List.append_ne_nil_of_right_ne_nil before (List.cons_ne_nil _ _))
  have hloop : ¬ Acyclic [.edge "a" ["a"] ∅] :=
    fun h => h "a" (.single ⟨["a"], ∅, List.mem_singleton_self _, List.mem_singleton_self _⟩)
  exact (ofStatements_outcome {} _).2.2.1 htyped fun h => hloop h.2

end Group

end DecayForest
