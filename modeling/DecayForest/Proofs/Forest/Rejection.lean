import DecayForest.Proofs.Forest.Replacement
/-!
# Rejected operations

Most operations look at everything that can go wrong before they change anything, and after that cannot
fail in a linked forest. So where one of them is rejected, the forest is as it was
(`Reachable.rejected_unchanged`). Copies of decays and expansions find their faults on the way and are
left out here.
-/

namespace DecayForest

namespace Edit

open Forest

variable {f : Forest} {p : ParticleId} {d : DecayId} {params : ParamList}

theorem atomic_modifyParticle {change : Particle → Particle} : (modifyParticle p change).Atomic f := by
  rcases hp : f.particle? p with _ | P
  · exact .of_error (on_modifyParticle_dead hp change)
  · exact .of_ok (on_modifyParticle hp change)

theorem atomic_modifyDecay {change : Decay → Decay} : (modifyDecay d change).Atomic f := by
  rcases hd : f.decay? d with _ | D
  · exact .of_error (on_modifyDecay_dead hd change)
  · exact .of_ok (on_modifyDecay hd change)

theorem atomic_removeDecay (hf : Linked f) : (removeDecay p d).Atomic f := by
  rcases removeDecay_cases hf p d with ⟨e, h⟩ | ⟨P, g, -, -, h, -⟩
  · exact .of_error h
  · exact .of_ok h

/-- A replacement ends as the addition does that comes after the removals. -/
theorem atomic_replace (hf : Linked f) (o : Offer) : (o.replace p params).Atomic f := by
  rcases hp : f.particle? p with _ | P
  · exact .of_error (o.on_replace_dead hp params)
  obtain ⟨g, -, hg⟩ := hf.on_forM_removeDecay hp
  rcases o.agree hf hp hg params with ⟨d, h, hok, -⟩ | ⟨e, e', herror, -⟩
  · exact .of_ok hok
  · exact .of_error herror

theorem atomic_copy : (copy p).Atomic f := by
  rcases hp : f.particle? p with _ | P
  · exact .of_error (on_copy_dead hp)
  · exact .of_ok (on_copy hp)

theorem atomic_copyTree (hf : Linked f) : (copyTree p).Atomic f := by
  rcases hp : f.particle? p with _ | P
  · exact .of_error (on_copyTree_dead hp)
  · obtain ⟨t, ht, rfl⟩ := hf.exists_tree hp
    obtain ⟨g, u, h, -⟩ := on_copyTree hf ht
    exact .of_ok h

theorem atomic_discard (hf : Linked f) : (Forest.discard p).Atomic f := by
  rcases hp : f.particle? p with _ | P
  · exact .of_error (on_bind_of_error (on_ask_particle_dead hp))
  rcases hpar : P.parent with _ | owner
  · obtain ⟨t, ht, rfl⟩ := hf.exists_tree hp
    obtain ⟨g, h, -⟩ := on_discard hf (hpar ▸ ht)
    exact .of_ok h
  · exact .of_error (on_discard_product hp hpar)

end Edit

namespace Operation

open Forest Edit

/-- An operation that looks at all its arguments before it changes anything. -/
def ChecksFirst : Operation → Prop
  | copyFreeDecay _ | copyDecay _ _ | expand _ _ => False
  | _ => True

theorem atomic (op : Operation) (hop : op.ChecksFirst) {f : Forest} (hf : Linked f) :
    op.edit.Atomic f := by
  cases op with
  | addParticle type params => exact .of_ok rfl
  | putParam id name v => exact atomic_modifyParticle
  | putDecayParam id name v => exact atomic_modifyDecay
  | addFreeDecay products params => exact atomic_addFreeDecay.map _
  | addDecay id products params => exact atomic_addDecay.map _
  | adoptDecay id decay params => exact atomic_adoptDecay.map _
  | setDecay id products params => exact (atomic_replace hf (.products products)).map _
  | adoptOnly id decay params => exact (atomic_replace hf (.decay decay)).map _
  | removeDecay id decay => exact atomic_removeDecay hf
  | copy id => exact atomic_copy.map _
  | copyTree id => exact (atomic_copyTree hf).map _
  | discard id => exact atomic_discard hf
  | copyFreeDecay decay => exact hop.elim
  | copyDecay decay parent => exact hop.elim
  | expand id limit => exact hop.elim

end Operation

namespace Forest

variable {f g : Forest} {e : ModelError}

/-- An operation that is rejected leaves the forest as it was, unless it copies a decay or expands. The
arguments are any handles, dead ones too. -/
theorem Reachable.rejected_unchanged (h : Reachable f) {op : Operation} (hop : op.ChecksFirst)
    (hrun : op.edit.on f = (.error e, g)) : g = f :=
  op.atomic hop h.linked e g hrun

/-- A decay that belongs to no particle and lists a live particle and a discarded one, beside another
live particle. -/
def lostProduct : Forest :=
  Operation.discard ⟨2, 0⟩ |>.after <| Operation.addFreeDecay [⟨1, 0⟩, ⟨2, 0⟩] ∅ |>.after <|
    Operation.addParticle "c" ∅ |>.after <| Operation.addParticle "b" ∅ |>.after <|
      Operation.addParticle "a" ∅ |>.after {}

theorem reachable_lostProduct : Reachable lostProduct :=
  .step _ (.step _ (.step _ (.step _ (.step _ (.empty {}) trivial) trivial) trivial) trivial) trivial

/-- The live product of the decay has no parent after the adoption is rejected, and the decay has the
parameters that it had. -/
theorem rejected_unchanged_lostProduct :
    (Operation.adoptDecay ⟨0, 0⟩ ⟨0, 0⟩ (.ofEntries [("x", .text "y")])).edit.on lostProduct =
      (.error (.deadParticle ⟨2, 0⟩), lostProduct) := by
  obtain ⟨g, hrun⟩ : ∃ g,
      (Operation.adoptDecay ⟨0, 0⟩ ⟨0, 0⟩ (.ofEntries [("x", .text "y")])).edit.on lostProduct =
        (.error (.deadParticle ⟨2, 0⟩), g) := ⟨_, rfl⟩
  have hop : (Operation.adoptDecay ⟨0, 0⟩ ⟨0, 0⟩ (.ofEntries [("x", .text "y")])).ChecksFirst := trivial
  rw [hrun, reachable_lostProduct.rejected_unchanged hop hrun]

end Forest

end DecayForest
