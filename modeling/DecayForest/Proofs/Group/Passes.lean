import DecayForest.Proofs.Group.Construction
/-!
# The two passes over statements

What each step of `Building` makes of a forest that holds what statements have said so far. The first
pass fails for a type only, the second for a decay that breaks the rules of linkage only.
-/

namespace DecayForest.Building

open Forest Edit

variable {f : Forest} {names : Names} {table : Table} {edges : List Edge} {params : ParamList}
  {type : Option String}

namespace Built

theorem on_declare (hb : Built f names table edges) (name : String)
    (htype : statedType params = .ok type) :
    ∃ f' names', (declare names name params).on f = (.ok names', f') ∧
      Built f' names' (table.enter name type (params.without ParamList.typeName)) edges := by
  unfold declare Table.enter
  rw [on_bind_of_ok (a := type) (g := f) (by rw [on_lift, htype])]
  rcases hname : names.lookup name with _ | p
  · rw [hb.table_eq_none hname]
    exact ⟨_, _, rfl, hb.add hname _ _⟩
  · obtain ⟨P, hP, htable, -⟩ := hb.entry hname
    rw [htable]
    refine ⟨_, names, ?_, hb.change hname hP (type.getD P.type)
      (P.params.overlay (params.without ParamList.typeName))⟩
    refine (on_bind_of_ok (on_modifyParticle hP _)).trans ?_
    exact congrArg (Except.ok names, ·) (mapParticle_congr hP rfl)

theorem on_declareAll (hb : Built f names table edges) (defaults : ParamList)
    (statements : List Statement) :
    (∃ f' names' table', declaredFrom table defaults statements = .ok table' ∧
      (declareAll names defaults statements).on f = (.ok names', f') ∧
      Built f' names' table' edges) ∨
    ∃ e f', declaredFrom table defaults statements = .error e ∧
      (declareAll names defaults statements).on f = (.error e, f') := by
  induction statements generalizing f names table defaults with
  | nil => exact .inl ⟨f, names, table, rfl, rfl, hb⟩
  | cons s rest ih =>
    match s with
    | .defaults .particle params => exact ih hb (defaults.overlay params)
    | .defaults .decay _ | .edge _ _ _ | .param _ _ => exact ih hb defaults
    | .node name params =>
      rw [declaredFrom, declareAll]
      rcases htype : statedType (defaults.overlay params) with e | type
      · refine .inr ⟨e, f, rfl, on_bind_of_error (on_bind_of_error ?_)⟩
        rw [on_lift, htype]
      · obtain ⟨f', names', hrun, hb'⟩ := hb.on_declare name htype
        rw [on_bind_of_ok hrun]
        exact ih hb' defaults

theorem on_mention (hb : Built f names table edges) (defaults : ParamList) (name : String) :
    ∃ f' names' p, (mention names defaults name).on f = (.ok (names', p), f') ∧
      Built f' names' (table.mention defaults name) edges ∧ names'.lookup name = some p ∧
      Extends names names' := by
  unfold mention Table.mention
  rcases hname : names.lookup name with _ | p
  · rw [hb.table_eq_none hname]
    exact ⟨_, _, _, rfl, hb.add hname name defaults, List.lookup_cons_self, .cons hname _⟩
  · obtain ⟨P, -, htable, -⟩ := hb.entry hname
    rw [htable]
    exact ⟨f, names, p, rfl, hb, hname, .refl names⟩

theorem on_mentionAll (hb : Built f names table edges) (defaults : ParamList)
    (ids : List ParticleId) (targets : List String) :
    ∃ f' names' qs, (mentionAll names defaults ids targets).on f =
        (.ok (names', ids.reverse ++ qs), f') ∧
      Built f' names' (targets.foldl (Table.mention · defaults) table) edges ∧
      List.Forall₂ (fun b q => names'.lookup b = some q) targets qs ∧ Extends names names' := by
  induction targets generalizing f names table ids with
  | nil => exact ⟨f, names, [], by rw [List.append_nil]; rfl, hb, .nil, .refl names⟩
  | cons name targets ih =>
    obtain ⟨f₁, names₁, p, hrun₁, hb₁, hp, hext₁⟩ := hb.on_mention defaults name
    obtain ⟨f₂, names₂, qs, hrun₂, hb₂, hqs, hext₂⟩ := ih hb₁ (p :: ids)
    refine ⟨f₂, names₂, p :: qs, ?_, hb₂, .cons (hext₂ _ _ hp) hqs, hext₁.trans hext₂⟩
    rw [mentionAll, on_bind_of_ok hrun₁, hrun₂, List.reverse_cons, List.append_assoc]
    rfl

/-- The decay of an edge statement is added or refused, once its identifiers are known. -/
theorem on_edge (hb : Built f names table edges) (e : Edge)
    (hnodup : (edges.flatMap Edge.targets).Nodup) {p : ParticleId} {qs : List ParticleId}
    (hp : names.lookup e.source = some p)
    (hqs : List.Forall₂ (fun b q => names.lookup b = some q) e.targets qs) :
    (∃ d f', (addDecay p qs e.params).on f = (.ok d, f') ∧ Built f' names table (edges ++ [e]) ∧
      ((edges ++ [e]).flatMap Edge.targets).Nodup) ∨
    ∃ fault, (addDecay p qs e.params).on f = (.error fault, f) ∧ fault.isConsistency ∧
      ¬ (((edges ++ [e]).flatMap Edge.targets).Nodup ∧
        ∀ a, ¬ Relation.TransGen (Leads (edges ++ [e])) a a) := by
  have hcheck := hb.checkAddition_iff hqs hp hnodup
  have hadd := on_addDecay p qs e.params f
  rcases hresult : f.checkAddition p qs with fault | ⟨⟩ <;> rw [hresult] at hadd
  · refine .inr ⟨fault, hadd, ?_, fun h => ?_⟩
    · obtain ⟨P, hP⟩ := hb.live hp
      refine checkAddition_error hb.linked hP (fun q hq => ?_) hresult
      obtain ⟨b, -, hbq⟩ := exists_left_of_forall₂ hqs hq
      exact hb.live hbq
    · cases hresult.symm.trans (hcheck.mpr h)
  · exact .inl ⟨_, _, hadd, hb.withDecay hqs hp hresult, (hcheck.mp hresult).1⟩

/-- What is wrong with some edges is wrong with more. -/
private theorem fault_append {more : List Edge}
    (h : ¬ ((edges.flatMap Edge.targets).Nodup ∧ ∀ a, ¬ Relation.TransGen (Leads edges) a a)) :
    ¬ (((edges ++ more).flatMap Edge.targets).Nodup ∧
      ∀ a, ¬ Relation.TransGen (Leads (edges ++ more)) a a) := by
  rintro ⟨hnodup, hacyclic⟩
  refine h ⟨?_, fun a ha => hacyclic a ?_⟩
  · rw [List.flatMap_append] at hnodup
    exact (List.nodup_append.mp hnodup).1
  · exact Relation.TransGen.mono (fun _ _ (h : Leads edges _ _) => h.append more) _ _ ha

theorem on_connectAll (hb : Built f names table edges)
    (hnodup : (edges.flatMap Edge.targets).Nodup) (particles decays : ParamList)
    (statements : List Statement) :
    (∃ f' names', (connectAll names particles decays statements).on f = (.ok names', f') ∧
      Built f' names' (mentionedFrom table particles statements)
        (edges ++ edgesFrom decays statements) ∧
      ((edges ++ edgesFrom decays statements).flatMap Edge.targets).Nodup) ∨
    ∃ e f', (connectAll names particles decays statements).on f = (.error e, f') ∧
      e.isConsistency ∧ ¬ (((edges ++ edgesFrom decays statements).flatMap Edge.targets).Nodup ∧
        ∀ a, ¬ Relation.TransGen (Leads (edges ++ edgesFrom decays statements)) a a) := by
  induction statements generalizing f names table edges particles decays with
  | nil => exact .inl ⟨f, names, rfl, by rwa [edgesFrom, List.append_nil],
      by rwa [edgesFrom, List.append_nil]⟩
  | cons s rest ih =>
    cases s with
    | defaults scope params =>
      cases scope with
      | particle => exact ih hb hnodup (particles.overlay params) decays
      | decay => exact ih hb hnodup particles (decays.overlay params)
    | node | param => exact ih hb hnodup particles decays
    | edge source targets params =>
      obtain ⟨f₁, names₁, p, hrun₁, hb₁, hp₁, hext₁⟩ := hb.on_mention particles source
      obtain ⟨f₂, names₂, qs, hrun₂, hb₂, hqs, hext₂⟩ := hb₁.on_mentionAll particles [] targets
      rw [connectAll, on_bind_of_ok hrun₁, on_bind_of_ok hrun₂, edgesFrom, List.append_cons,
        List.reverse_nil, List.nil_append]
      dsimp only
      rcases hb₂.on_edge ⟨source, targets, decays.overlay params⟩ hnodup (hext₂ _ _ hp₁) hqs with
        ⟨d, f₃, hadd, hb₃, hnodup₃⟩ | ⟨fault, hadd, hkind, hfault⟩
      · rw [on_bind_of_ok hadd]
        exact ih hb₃ hnodup₃ particles decays
      · rw [on_bind_of_error hadd]
        exact .inr ⟨fault, f₂, rfl, hkind, fault_append hfault⟩

end Built

end DecayForest.Building
