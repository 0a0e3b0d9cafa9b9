import DecayForest.Proofs.Forest.Persistence
/-!
# Unique names

A unique name ends in a serial number, and no digit is an underscore, so it tells the number whatever the
type is (`Particle.serial_eq_of_uniqueName_eq`). One counter numbers particles and decays. It is ahead of
all numbers that are in use, so no number is in use twice (`DistinctSerials`), and an old number stays with the
particle that got it (`Follows`). Both last, whatever is done to a forest. So no name comes back once its
particle has gone, not even where the slot of the particle is taken again (`uniqueName_stays`).
-/

namespace DecayForest

/-! ### Texts -/

namespace Particle

theorem toList_uniqueName (P : Particle) :
    P.uniqueName.toList = P.type.toList ++ '_' :: Nat.toDigits 10 P.serial := by
  rw [uniqueName, String.toList_append, String.toList_append, List.append_assoc]
  refine congrArg (P.type.toList ++ '_' :: ·) ?_
  exact Nat.toList_repr

/-- The serial number is what stands after the last underscore. -/
private theorem takeWhile_reverse_uniqueName (P : Particle) :
    P.uniqueName.toList.reverse.takeWhile (· != '_') = (Nat.toDigits 10 P.serial).reverse := by
  rw [toList_uniqueName, List.reverse_append, List.reverse_cons, List.append_assoc,
    List.takeWhile_append_of_pos]
  · exact List.append_nil _
  · intro c hc
    apply bne_iff_ne.mpr
    rintro rfl
    exact Nat.underscore_not_in_toDigits (List.mem_reverse.mp hc)

/-- Particles with one unique name have one serial number, be their types what they may. -/
theorem serial_eq_of_uniqueName_eq {P Q : Particle} (h : P.uniqueName = Q.uniqueName) :
    P.serial = Q.serial := by
  have hdigits : Nat.toDigits 10 P.serial = Nat.toDigits 10 Q.serial := by
    apply List.reverse_injective
    rw [← takeWhile_reverse_uniqueName P, h, takeWhile_reverse_uniqueName]
  have hserial := congrArg (Nat.ofDigitChars 10 · 0) hdigits
  simpa only [Nat.ofDigitChars_ten_toDigits] using hserial

end Particle

namespace Forest

open Edit Operation

variable {f g : Forest} {x y : ParticleId} {X Y : Particle} {e e₀ e' : ParticleId ⊕ DecayId} {n : Nat}
  {name : String}

theorem uniqueName_eq_ok :
    f.uniqueName x = .ok name ↔ ∃ X, f.particle? x = some X ∧ X.uniqueName = name := by
  unfold uniqueName particle
  cases f.particle? x <;> simp

/-! ### Numbers in use -/

/-- The serial number of a particle or a decay. -/
def serial? (f : Forest) : ParticleId ⊕ DecayId → Option Nat
  | .inl x => (f.particle? x).map Particle.serial
  | .inr d => (f.decay? d).map Decay.serial

theorem serial?_plusParticle (f : Forest) (type : String) (params : ParamList)
    (e : ParticleId ⊕ DecayId) : (f.plusParticle type params).serial? e =
      if e = .inl f.nextParticle then some f.nextSerial else f.serial? e := by
  rcases e with x | d
  · simp only [serial?, particle?_plusParticle, Sum.inl.injEq]
    split <;> rfl
  · rfl

theorem serial?_plusDecay (f : Forest) (products : List ParticleId) (params : ParamList)
    (e : ParticleId ⊕ DecayId) : (f.plusDecay products params).serial? e =
      if e = .inr f.nextDecay then some f.nextSerial else f.serial? e := by
  rcases e with x | d
  · rfl
  · simp only [serial?, decay?_plusDecay, Sum.inr.injEq]
    split <;> rfl

theorem serial?_mapParticle {change : Particle → Particle} (h : ∀ P, (change P).serial = P.serial)
    (f : Forest) (p : ParticleId) (e : ParticleId ⊕ DecayId) :
    (f.mapParticle p change).serial? e = f.serial? e := by
  rcases e with x | d
  · rw [serial?, particle?_mapParticle, serial?]
    split
    · next hx =>
      subst hx
      cases f.particle? x with
      | none => rfl
      | some P => exact congrArg some (h P)
    · rfl
  · rfl

theorem serial?_mapDecay {change : Decay → Decay} (h : ∀ D, (change D).serial = D.serial)
    (f : Forest) (d : DecayId) (e : ParticleId ⊕ DecayId) :
    (f.mapDecay d change).serial? e = f.serial? e := by
  rcases e with x | d'
  · rfl
  · rw [serial?, decay?_mapDecay, serial?]
    split
    · next hd =>
      subst hd
      cases f.decay? d' with
      | none => rfl
      | some D => exact congrArg some (h D)
    · rfl

theorem serial?_of_minusParticle {p : ParticleId} (h : (f.minusParticle p).serial? e = some n) :
    f.serial? e = some n := by
  rcases e with x | d
  · rw [serial?, particle?_minusParticle] at h
    split at h
    · cases h
    · exact h
  · exact h

theorem serial?_of_minusDecay {d : DecayId} (h : (f.minusDecay d).serial? e = some n) :
    f.serial? e = some n := by
  rcases e with x | d'
  · exact h
  · rw [serial?, decay?_minusDecay] at h
    split at h
    · cases h
    · exact h

/-- The counter is ahead of all numbers in use, and none of them is in use twice, be it for a particle and
a decay. -/
structure DistinctSerials (f : Forest) : Prop where
  lt_next : ∀ {e n}, f.serial? e = some n → n < f.nextSerial
  unique : ∀ {e e' n}, f.serial? e = some n → f.serial? e' = some n → e = e'

namespace DistinctSerials

theorem empty (database : Database) : DistinctSerials { database } where
  lt_next {e _} h := by cases e <;> cases h
  unique {e _ _} h _ := by cases e <;> cases h

/-- The number that is given out next is new, as it has not been reached. -/
theorem add (hf : DistinctSerials f) (hserial : g.nextSerial = f.nextSerial + 1)
    (h : ∀ e, g.serial? e = if e = e₀ then some f.nextSerial else f.serial? e) : DistinctSerials g where
  lt_next {e n} he := by
    rw [h] at he
    split at he
    · cases he
      omega
    · have := hf.lt_next he
      omega
  unique {e e' n} he he' := by
    rw [h] at he he'
    split at he <;> split at he'
    · next heq heq' => rw [heq, heq']
    · cases he
      exact (Nat.lt_irrefl _ (hf.lt_next he')).elim
    · cases he'
      exact (Nat.lt_irrefl _ (hf.lt_next he)).elim
    · exact hf.unique he he'

theorem of_le (hf : DistinctSerials f) (hserial : g.nextSerial = f.nextSerial)
    (h : ∀ {e n}, g.serial? e = some n → f.serial? e = some n) : DistinctSerials g where
  lt_next he := hserial ▸ hf.lt_next (h he)
  unique he he' := hf.unique (h he) (h he')

theorem eq_of_serial_eq (hf : DistinctSerials f) (hX : f.particle? x = some X) (hY : f.particle? y = some Y)
    (h : X.serial = Y.serial) : x = y := by
  have hx : f.serial? (.inl x) = some X.serial := congrArg (Option.map Particle.serial) hX
  have hy : f.serial? (.inl y) = some Y.serial := congrArg (Option.map Particle.serial) hY
  exact Sum.inl.inj (hf.unique hx (h ▸ hy))

theorem serial_lt (hf : DistinctSerials f) (hX : f.particle? x = some X) : X.serial < f.nextSerial :=
  hf.lt_next (e := .inl x) (congrArg (Option.map Particle.serial) hX)

end DistinctSerials

/-- One more number is taken where a particle or a decay is added, and all others stay or go. -/
theorem lasting_distinctSerials : Lasting DistinctSerials where
  plusParticle type params h := h.add rfl (serial?_plusParticle _ type params)
  plusDecay products params h := h.add rfl (serial?_plusDecay _ products params)
  mapParticle _ _ hsame h := h.of_le rfl fun he =>
    (serial?_mapParticle (fun P => (hsame P).2) ..).symm.trans he
  mapDecay _ _ hsame h := h.of_le rfl fun he => (serial?_mapDecay hsame ..).symm.trans he
  minusParticle _ h := h.of_le rfl serial?_of_minusParticle
  minusDecay _ h := h.of_le rfl serial?_of_minusDecay

theorem distinctSerials_afterAll (ops : List Operation) (database : Database) :
    DistinctSerials (afterAll ops { database }) :=
  holds_afterAll lasting_distinctSerials ops (.empty database)

/-! ### What follows a forest -/

/-- `g` can have come of `f`: a particle with an old handle, or with an old number, is the particle of that
time, and has its type still. -/
structure Follows (f g : Forest) : Prop where
  precedes : Precedes f g
  old : ∀ {x X}, g.particle? x = some X → f.Spent x ∨ X.serial < f.nextSerial →
    ∃ F, f.particle? x = some F ∧ F.type = X.type ∧ F.serial = X.serial

namespace Follows

protected theorem refl (f : Forest) : Follows f f :=
  ⟨.refl f, fun {_ X} hX _ => ⟨X, hX, rfl, rfl⟩⟩

theorem trans {h : Forest} (hg : Follows f g) (hh : Follows g h) : Follows f h where
  precedes := hg.precedes.trans hh.precedes
  old {x X} hX hold := by
    have hold' : g.Spent x ∨ X.serial < g.nextSerial :=
      hold.imp hg.precedes.spent fun hlt => Nat.lt_of_lt_of_le hlt hg.precedes.serial
    obtain ⟨Y, hY, htype, hserial⟩ := hh.old hX hold'
    obtain ⟨F, hF, htype', hserial'⟩ := hg.old hY (hserial ▸ hold)
    exact ⟨F, hF, htype'.trans htype, hserial'.trans hserial⟩

/-- Neither the handle nor the number of a new particle has been given out before. -/
theorem plusParticle (f : Forest) (type : String) (params : ParamList) :
    Follows f (f.plusParticle type params) where
  precedes := .plusParticle f type params
  old {x X} hX hold := by
    rw [particle?_plusParticle] at hX
    split at hX
    · next hnew =>
      cases hX
      rcases hold with hspent | hlt
      · exact (f.not_spent_next (hnew ▸ hspent)).elim
      · exact (Nat.lt_irrefl _ hlt).elim
    · exact ⟨X, hX, rfl, rfl⟩

/-- A particle that is there still has its name from that time. -/
theorem uniqueName_eq (hg : Follows f g) (hx : f.uniqueName x = .ok name) (hX : g.particle? x = some X) :
    g.uniqueName x = .ok name := by
  obtain ⟨F, hF, rfl⟩ := uniqueName_eq_ok.mp hx
  obtain ⟨F', hF', htype, hserial⟩ := hg.old hX (.inl (spent_of_particle? hF))
  cases hF.symm.trans hF'
  refine uniqueName_eq_ok.mpr ⟨X, hX, ?_⟩
  rw [Particle.uniqueName, Particle.uniqueName, htype, hserial]

/-- A name belongs to the particle that had it at an earlier time. -/
theorem eq_of_uniqueName (hf : DistinctSerials f) (hg : Follows f g) (hx : f.uniqueName x = .ok name)
    (hy : g.uniqueName y = .ok name) : y = x := by
  obtain ⟨F, hF, rfl⟩ := uniqueName_eq_ok.mp hx
  obtain ⟨Y, hY, heq⟩ := uniqueName_eq_ok.mp hy
  have hserial : Y.serial = F.serial := Particle.serial_eq_of_uniqueName_eq heq
  obtain ⟨F', hF', -, hsame⟩ := hg.old hY (.inr (hserial ▸ hf.serial_lt hF))
  exact hf.eq_of_serial_eq hF' hF (hsame.trans hserial)

end Follows

/-- Whatever changes, a forest is followed by what comes of it. -/
theorem lasting_follows (f : Forest) : Lasting (Follows f) where
  plusParticle type params h := h.trans (.plusParticle _ type params)
  plusDecay products params h := h.trans ⟨.plusDecay _ products params, fun hX _ => ⟨_, hX, rfl, rfl⟩⟩
  mapParticle _ _ hsame h := by
    refine h.trans ⟨.of_frame (frame_mapParticle ..), fun {x X} hX _ => ?_⟩
    rw [particle?_mapParticle] at hX
    split at hX
    · next heq =>
      subst heq
      obtain ⟨P, hP, rfl⟩ := Option.map_eq_some_iff.mp hX
      exact ⟨P, hP, (hsame P).1.symm, (hsame P).2.symm⟩
    · exact ⟨X, hX, rfl, rfl⟩
  mapDecay _ _ _ h := h.trans ⟨.of_frame (frame_mapDecay ..), fun hX _ => ⟨_, hX, rfl, rfl⟩⟩
  minusParticle p h := by
    refine h.trans ⟨.minusParticle _ p, fun {x X} hX _ => ?_⟩
    rw [particle?_minusParticle] at hX
    split at hX
    · cases hX
    · exact ⟨X, hX, rfl, rfl⟩
  minusDecay d h := h.trans ⟨.minusDecay _ d, fun hX _ => ⟨_, hX, rfl, rfl⟩⟩

theorem follows_afterAll (f : Forest) (ops : List Operation) : Follows f (afterAll ops f) :=
  holds_afterAll (lasting_follows f) ops (.refl f)

/-! ### Names -/

/-- After any operations, failing ones among them, no two particles have one name. Whatever is done later,
a particle that is still there keeps its name. Where a name is in use later, it is so for the particle that
had it at first, which has been there all the time in between: no other one ever gets the name, and none has
it any more once that particle has gone. -/
theorem uniqueName_stays (database : Database) (earlier later : List Operation)
    (hx : (afterAll earlier { database }).uniqueName x = .ok name) :
    (∀ y, (afterAll earlier { database }).uniqueName y = .ok name → y = x) ∧
    ((afterAll (earlier ++ later) { database }).particle? x ≠ none →
      (afterAll (earlier ++ later) { database }).uniqueName x = .ok name) ∧
    ∀ y, (afterAll (earlier ++ later) { database }).uniqueName y = .ok name →
      y = x ∧ ∀ between rest, later = between ++ rest →
        (afterAll (earlier ++ between) { database }).uniqueName x = .ok name := by
  have hserials := distinctSerials_afterAll earlier database
  have hfollows : ∀ ops, Follows (afterAll earlier { database })
      (afterAll (earlier ++ ops) { database }) := by
    intro ops
    rw [afterAll_append]
    exact follows_afterAll _ ops
  refine ⟨fun y hy => (Follows.refl _).eq_of_uniqueName hserials hx hy, fun hlive => ?_, fun y hy => ?_⟩
  · obtain ⟨X, hX⟩ := Option.ne_none_iff_exists'.mp hlive
    exact (hfollows later).uniqueName_eq hx hX
  · obtain rfl := (hfollows later).eq_of_uniqueName hserials hx hy
    refine ⟨rfl, fun between rest hlater => ?_⟩
    subst hlater
    -- the handle is spent in between, so what it finds later was there
    obtain ⟨F, hF, -⟩ := uniqueName_eq_ok.mp hx
    obtain ⟨Y, hY, -⟩ := uniqueName_eq_ok.mp hy
    rw [← List.append_assoc, afterAll_append] at hY
    have hspent := (hfollows between).precedes.spent (spent_of_particle? hF)
    obtain ⟨X, hX, -⟩ := (follows_afterAll _ rest).old hY (.inl hspent)
    exact (hfollows between).uniqueName_eq hx hX

/-- Three particles, the first of a type that looks like a unique name, the last of no type at all. -/
def oddTypes : List Operation :=
  [.addParticle "a_1" ∅, .addParticle "a" ∅, .addParticle "" ∅]

/-- The first particle goes, and one of its type takes its slot. -/
def takenAgain : List Operation :=
  [.discard ⟨0, 0⟩, .discard ⟨0, 0⟩, .addParticle "a_1" ∅]

/-- The name `a_1` is that of the second particle. The particle in the slot of the first one has another
number, and the name of the first one is gone. -/
theorem uniqueName_stays_takenAgain :
    (∀ y, (afterAll oddTypes {}).uniqueName y = .ok "a_1" → y = ⟨1, 0⟩) ∧
      (afterAll (oddTypes ++ takenAgain) {}).uniqueName ⟨1, 0⟩ = .ok "a_1" ∧
      (afterAll (oddTypes ++ takenAgain) {}).uniqueName ⟨0, 1⟩ = .ok "a_1_3" ∧
      ∀ y, (afterAll (oddTypes ++ takenAgain) {}).uniqueName y ≠ .ok "a_1_0" := by
  have hfirst : (afterAll oddTypes {}).uniqueName ⟨0, 0⟩ = .ok "a_1_0" := rfl
  have hsecond : (afterAll oddTypes {}).uniqueName ⟨1, 0⟩ = .ok "a_1" := rfl
  obtain ⟨honly, hkept, -⟩ := uniqueName_stays {} oddTypes takenAgain hsecond
  refine ⟨honly, hkept nofun, rfl, fun y hy => ?_⟩
  obtain ⟨-, -, hlater⟩ := uniqueName_stays {} oddTypes takenAgain hfirst
  cases (hlater y hy).2 [.discard ⟨0, 0⟩] _ rfl

end Forest

end DecayForest
