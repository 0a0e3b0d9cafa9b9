import Mathlib.Data.List.Basic
import Mathlib.Data.List.Forall2
import Mathlib.Data.List.Induction
import Mathlib.Logic.Function.Basic
/-!
# Lists in step

Two lists are in step where a relation holds item by item (`List.Forall₂`). Copies, reads and tables
of lists are spoken of in this way.
-/

namespace DecayForest

variable {α β : Type}

theorem forall₂_iff_map_eq {γ : Type} {φ : α → γ} {ψ : β → γ} {l : List α} {m : List β} :
    List.Forall₂ (fun a b => φ a = ψ b) l m ↔ l.map φ = m.map ψ := by
  rw [← List.forall₂_eq_eq_eq, List.forall₂_map_left_iff, List.forall₂_map_right_iff]

theorem forall₂_imp_of_mem {R S : α → β → Prop} {l : List α} {m : List β}
    (h : List.Forall₂ R l m) (himp : ∀ a ∈ l, ∀ b ∈ m, R a b → S a b) : List.Forall₂ S l m := by
  induction h with
  | nil => exact .nil
  | cons hab _ ih =>
    exact .cons (himp _ List.mem_cons_self _ List.mem_cons_self hab)
      (ih fun a ha b hb => himp a (List.mem_cons_of_mem _ ha) b (List.mem_cons_of_mem _ hb))

theorem exists_forall₂ {R : α → β → Prop} {l : List α} (h : ∀ a ∈ l, ∃ b, R a b) :
    ∃ m, List.Forall₂ R l m := by
  induction l with
  | nil => exact ⟨[], .nil⟩
  | cons a l ih =>
    obtain ⟨b, hb⟩ := h a List.mem_cons_self
    obtain ⟨m, hm⟩ := ih fun c hc => h c (List.mem_cons_of_mem a hc)
    exact ⟨b :: m, .cons hb hm⟩

theorem exists_append_of_forall₂ {R : α → β → Prop} {l l' : List α} {m : List β}
    (h : List.Forall₂ R (l ++ l') m) :
    ∃ n n', List.Forall₂ R l n ∧ List.Forall₂ R l' n' ∧ m = n ++ n' := by
  induction l generalizing m with
  | nil => exact ⟨[], m, .nil, h, rfl⟩
  | cons a l ih =>
    cases h with
    | @cons _ b _ m hab h =>
      obtain ⟨n, n', hn, hn', rfl⟩ := ih h
      exact ⟨b :: n, n', .cons hab hn, hn', rfl⟩

theorem exists_left_of_forall₂ {R : α → β → Prop} {l : List α} {m : List β}
    (h : List.Forall₂ R l m) {b : β} (hb : b ∈ m) : ∃ a ∈ l, R a b := by
  induction h with
  | nil => cases hb
  | @cons a b' l m hab _ ih =>
    rcases List.mem_cons.mp hb with rfl | hb
    · exact ⟨a, List.mem_cons_self, hab⟩
    · obtain ⟨a', ha', h⟩ := ih hb
      exact ⟨a', List.mem_cons_of_mem a ha', h⟩

theorem exists_right_of_forall₂ {R : α → β → Prop} {l : List α} {m : List β}
    (h : List.Forall₂ R l m) {a : α} (ha : a ∈ l) : ∃ b ∈ m, R a b :=
  exists_left_of_forall₂ (R := flip R) h.flip ha

theorem exists_of_forall₂ {γ : Type} {R : α → β → Prop} {φ : α → γ} {ψ : β → γ} {l : List α}
    {m : List β} (h : List.Forall₂ R l m) (hmap : l.map φ = m.map ψ) {a : α} (ha : a ∈ l) :
    ∃ b ∈ m, R a b ∧ φ a = ψ b := by
  induction h with
  | nil => cases ha
  | @cons a' b l m hab _ ih =>
    rw [List.map_cons, List.map_cons, List.cons.injEq] at hmap
    rcases List.mem_cons.mp ha with rfl | ha
    · exact ⟨b, List.mem_cons_self, hab, hmap.1⟩
    · obtain ⟨b', hb', h⟩ := ih hmap.2 ha
      exact ⟨b', List.mem_cons_of_mem b hb', h⟩

theorem forall₂_trans {γ : Type} {R : α → γ → Prop} {S : γ → β → Prop} {T : α → β → Prop}
    {l : List α} {n : List γ} {m : List β} (h : List.Forall₂ R l n) (h' : List.Forall₂ S n m)
    (htrans : ∀ a c b, R a c → S c b → T a b) : List.Forall₂ T l m := by
  induction h generalizing m with
  | nil => cases h'; exact .nil
  | cons hac _ ih =>
    cases h' with
    | cons hcb h' => exact .cons (htrans _ _ _ hac hcb) (ih h')

theorem exists_between_of_forall₂ {γ : Type} {R : α → γ → Prop} {S : γ → β → Prop} {l : List α}
    {m : List β} (h : List.Forall₂ (fun a b => ∃ c, R a c ∧ S c b) l m) :
    ∃ n, List.Forall₂ R l n ∧ List.Forall₂ S n m := by
  induction h with
  | nil => exact ⟨[], .nil, .nil⟩
  | cons hab _ ih =>
    obtain ⟨c, hac, hcb⟩ := hab
    obtain ⟨n, hln, hnm⟩ := ih
    exact ⟨c :: n, .cons hac hln, .cons hcb hnm⟩

/-- Lists that are put together from parts of equal lengths have equal parts. -/
theorem forall₂_of_flatMap_eq {γ : Type} {φ : α → List γ} {ψ : β → List γ} {R : α → β → Prop}
    {l : List α} {m : List β} (h : List.Forall₂ R l m)
    (hlen : ∀ a b, R a b → (φ a).length = (ψ b).length) (hmap : l.flatMap φ = m.flatMap ψ) :
    List.Forall₂ (fun a b => R a b ∧ φ a = ψ b) l m := by
  induction h with
  | nil => exact .nil
  | cons hab _ ih =>
    rw [List.flatMap_cons, List.flatMap_cons] at hmap
    obtain ⟨hfirst, hrest⟩ := List.append_inj hmap (hlen _ _ hab)
    exact .cons ⟨hab, hfirst⟩ (ih hrest)

theorem forall₂_of_filterMap {γ : Type} {φ : γ → Option α} {R : α → β → Prop} {l : List γ}
    {m : List β} (hl : ∀ c ∈ l, ∃ a, φ c = some a) (h : List.Forall₂ R (l.filterMap φ) m) :
    List.Forall₂ (fun c b => ∃ a, φ c = some a ∧ R a b) l m := by
  induction l generalizing m with
  | nil => cases h; exact .nil
  | cons c l ih =>
    obtain ⟨⟨a, ha⟩, hl⟩ := List.forall_mem_cons.mp hl
    rw [List.filterMap_cons_some ha] at h
    cases h with
    | cons hab h => exact .cons ⟨a, ha, hab⟩ (ih hl h)

theorem flatMap_eq_of_unique {φ : α → List β} {l : List α} (hl : l.Nodup) {a : α} (ha : a ∈ l)
    (h : ∀ b ∈ l, b ≠ a → φ b = []) : l.flatMap φ = φ a := by
  obtain ⟨before, after, rfl⟩ := List.append_of_mem ha
  obtain ⟨-, hafter, hne⟩ := List.nodup_append.mp hl
  have hnil : ∀ m : List α, (∀ b ∈ m, φ b = []) → m.flatMap φ = [] := fun m hm =>
    List.flatMap_eq_nil_iff.mpr hm
  rw [List.flatMap_append, List.flatMap_cons, hnil before, hnil after, List.append_nil,
    List.nil_append]
  · intro b hb
    refine h b (List.mem_append_right _ (List.mem_cons_of_mem a hb)) ?_
    rintro rfl
    exact (List.nodup_cons.mp hafter).1 hb
  · exact fun b hb => h b (List.mem_append_left _ hb) (hne b hb a List.mem_cons_self)

/-- A table of distinct keys gives back its values in order. -/
theorem map_lookup_zip [BEq α] [LawfulBEq α] {keys : List α} {values : List β} (φ : α → β)
    (hnodup : keys.Nodup) (hlen : keys.length = values.length)
    (hφ : ∀ k ∈ keys, (keys.zip values).lookup k = some (φ k)) : keys.map φ = values := by
  induction keys generalizing values with
  | nil => exact (List.length_eq_zero_iff.mp hlen.symm).symm
  | cons k keys ih =>
    rcases values with _ | ⟨v, values⟩
    · cases hlen
    · obtain ⟨hk, hnodup⟩ := List.nodup_cons.mp hnodup
      have hv : v = φ k := by
        have := hφ k List.mem_cons_self
        simpa using this
      rw [List.map_cons, ← hv]
      refine congrArg (v :: ·) (ih hnodup (Nat.succ.inj hlen) fun x hx => ?_)
      have hne : ¬ x = k := fun h => hk (h ▸ hx)
      have := hφ x (List.mem_cons_of_mem k hx)
      rwa [List.zip_cons_cons, List.lookup_cons, beq_false_of_ne hne] at this

theorem lookup_zip_isSome [BEq α] [LawfulBEq α] {keys : List α} {values : List β}
    (hlen : keys.length = values.length) {k : α} (hk : k ∈ keys) :
    ∃ v, (keys.zip values).lookup k = some v := by
  induction keys generalizing values with
  | nil => cases hk
  | cons x keys ih =>
    rcases values with _ | ⟨v, values⟩
    · cases hlen
    · rw [List.zip_cons_cons, List.lookup_cons]
      by_cases hkx : k = x
      · exact ⟨v, by simp [hkx]⟩
      · rw [beq_false_of_ne hkx]
        exact ih (Nat.succ.inj hlen) ((List.mem_cons.mp hk).resolve_left hkx)

/-- Of blocks of equal items, one item is left of each block if they differ from block to block. -/
theorem eraseDups_blocks {γ : Type} [BEq β] [LawfulBEq β] {block : α → List γ} {φ : α → β}
    {l : List α} (hblock : ∀ a ∈ l, block a ≠ []) (hl : (l.map φ).Nodup) :
    (l.flatMap fun a => (block a).map fun _ => φ a).eraseDups = l.map φ := by
  have hone : ∀ (b : β) (items : List γ), items ≠ [] → (items.map fun _ => b).eraseDups = [b] := by
    intro b items hne
    induction items with
    | nil => exact absurd rfl hne
    | cons c items _ =>
      have hnone : (items.map fun _ => b).filter (fun x => !x == b) = [] := by
        refine List.filter_eq_nil_iff.mpr fun x hx => ?_
        obtain ⟨-, -, rfl⟩ := List.mem_map.mp hx
        simp
      rw [List.map_cons, List.eraseDups_cons, hnone, List.eraseDups_nil]
  induction l with
  | nil => rfl
  | cons a l ih =>
    obtain ⟨ha, hblock⟩ := List.forall_mem_cons.mp hblock
    rw [List.map_cons, List.nodup_cons] at hl
    have hrest : (l.flatMap fun b => (block b).map fun _ => φ b).removeAll
        ((block a).map fun _ => φ a) = l.flatMap fun b => (block b).map fun _ => φ b := by
      refine List.filter_eq_self.mpr fun x hx => ?_
      obtain ⟨b, hb, hx⟩ := List.mem_flatMap.mp hx
      obtain ⟨-, -, rfl⟩ := List.mem_map.mp hx
      rw [Bool.not_eq_true', List.elem_eq_mem, decide_eq_false_iff_not]
      intro hmem
      obtain ⟨-, -, heq⟩ := List.mem_map.mp hmem
      exact hl.1 (heq ▸ List.mem_map_of_mem hb)
    rw [List.flatMap_cons, List.eraseDups_append, hone _ _ ha, hrest, ih hblock hl.2, List.map_cons]
    rfl

/-- Of equal items the first is kept, so the items that are kept come in the order of their first places. -/
theorem eraseDups_pairwise_idxOf [BEq β] [LawfulBEq β] (l : List β) :
    l.eraseDups.Pairwise fun a b => l.idxOf a < l.idxOf b := by
  induction l using List.reverseRecOn with
  | nil => exact .nil
  | append_singleton l c ih =>
    have hl : l.eraseDups.Pairwise fun a b => (l ++ [c]).idxOf a < (l ++ [c]).idxOf b := by
      refine ih.imp_of_mem fun ha hb h => ?_
      rwa [List.idxOf_append_of_mem (List.mem_eraseDups.mp ha),
        List.idxOf_append_of_mem (List.mem_eraseDups.mp hb)]
    rw [List.eraseDups_append]
    by_cases hc : c ∈ l
    · rw [show [c].removeAll l = [] by simp [List.removeAll, hc], List.eraseDups_nil, List.append_nil]
      exact hl
    · rw [show [c].removeAll l = [c] by simp [List.removeAll, hc], List.eraseDups_cons]
      refine List.pairwise_append.mpr ⟨hl, by simp, fun a ha b hb => ?_⟩
      have hac := List.mem_eraseDups.mp ha
      obtain rfl : b = c := by simpa using hb
      rw [List.idxOf_append_of_mem hac, List.idxOf_append_of_notMem hc]
      exact Nat.lt_of_lt_of_le (List.idxOf_lt_length_of_mem hac) (Nat.le_add_right _ _)

/-- Items that are dealt out by a key, and then in step with what each key has got, can be put in step all
together. -/
theorem exists_undealt {κ : Type} [DecidableEq κ] {key : α → κ} {R : α → β → Prop} {l : List α}
    {hands : κ → List β} (hhands : ∀ k, List.Forall₂ R (l.filter (key · = k)) (hands k))
    (hnodup : ∀ k, (hands k).Nodup) (hone : ∀ k k' b, b ∈ hands k → b ∈ hands k' → k = k') :
    ∃ m, List.Forall₂ (fun a b => R a b ∧ b ∈ hands (key a)) l m ∧ m.Nodup ∧
      ∀ k, ((l.zip m).filter (key ·.1 = k)).map Prod.snd = hands k := by
  induction l generalizing hands with
  | nil =>
    exact ⟨[], .nil, .nil, fun k => (List.forall₂_nil_left_iff.mp (hhands k)).symm⟩
  | cons a l ih =>
    have ha := hhands (key a)
    rw [List.filter_cons_of_pos (by simp)] at ha
    obtain ⟨b, rest, hab, hrest, heq⟩ := List.forall₂_cons_left_iff.mp ha
    have hsub : ∀ k, (Function.update hands (key a) rest k).Sublist (hands k) := by
      intro k
      by_cases hk : k = key a
      · subst hk
        rw [Function.update_self, heq]
        exact List.sublist_cons_self b rest
      · rw [Function.update_of_ne hk]
    have hleft : ∀ k, List.Forall₂ R (l.filter (key · = k)) (Function.update hands (key a) rest k) := by
      intro k
      by_cases hk : k = key a
      · subst hk
        rwa [Function.update_self]
      · rw [Function.update_of_ne hk]
        have := hhands k
        rwa [List.filter_cons_of_neg (by simpa using Ne.symm hk)] at this
    obtain ⟨m, hm, hmnodup, hzip⟩ := ih hleft (fun k => (hnodup k).sublist (hsub k))
      fun k k' c hc hc' => hone k k' c ((hsub k).subset hc) ((hsub k').subset hc')
    have hb : b ∈ hands (key a) := heq ▸ List.mem_cons_self
    refine ⟨b :: m, .cons ⟨hab, hb⟩ (hm.imp fun c d hcd => ⟨hcd.1, (hsub _).subset hcd.2⟩),
      List.nodup_cons.mpr ⟨fun hbm => ?_, hmnodup⟩, fun k => ?_⟩
    · obtain ⟨c, -, -, hbc⟩ := exists_left_of_forall₂ hm hbm
      have hkey := hone _ _ b hb ((hsub _).subset hbc)
      rw [← hkey, Function.update_self] at hbc
      exact (List.nodup_cons.mp (heq ▸ hnodup (key a))).1 hbc
    · rw [List.zip_cons_cons, List.filter_cons]
      by_cases hk : key a = k
      · subst hk
        simp [hzip, heq]
      · simp [hk, hzip, Function.update_of_ne (Ne.symm hk)]

/-- The place of an item is that of the first item in step with it. -/
theorem idxOf_eq_findIdx [BEq β] [LawfulBEq β] {holds : α → Bool} {b : β} {l : List α} {m : List β}
    (h : List.Forall₂ (fun a c => c = b ↔ holds a = true) l m) : m.idxOf b = l.findIdx holds := by
  induction h with
  | nil => rfl
  | @cons a c l m hac _ ih =>
    rw [List.idxOf_cons, List.findIdx_cons, ih]
    by_cases ha : holds a = true
    · simp [ha, hac.mpr ha]
    · simp [Bool.eq_false_iff.mpr ha, beq_false_of_ne fun hc => ha (hac.mp hc)]

/-- What is found among items, each under the key of the item it comes from, keeps their order. -/
theorem sublist_of_forall₂ {R : α → Option β → Prop} (key : β → α) {l : List α} {m : List (Option β)}
    (h : List.Forall₂ R l m) (hkey : ∀ a b, R a (some b) → key b = a) :
    ((m.filterMap id).map key).Sublist l := by
  induction h with
  | nil => exact .slnil
  | @cons a found l m ha _ ih =>
    rcases found with _ | b
    · exact ih.cons a
    · obtain rfl := hkey a b ha
      exact ih.cons_cons (key b)

/-- In a list without repetitions each item has one place. -/
theorem getElem?_unique {l : List α} (h : l.Nodup) {a : α} {i j : Nat} (hi : l[i]? = some a)
    (hj : l[j]? = some a) : i = j := by
  obtain ⟨hlt, -⟩ := List.getElem?_eq_some_iff.mp hi
  apply (List.getElem?_inj hlt h).mp
  exact hi.trans hj.symm

theorem pairwise_getElem?_lt {l : List α} (h : l.Nodup) :
    l.Pairwise fun a b => ∀ i j : Nat, l[i]? = some a → l[j]? = some b → i < j := by
  rw [List.pairwise_iff_getElem]
  intro i j hi hj hij i' j' hi' hj'
  rwa [getElem?_unique h hi' (List.getElem?_eq_getElem hi),
    getElem?_unique h hj' (List.getElem?_eq_getElem hj)]

/-! ### Reading item by item -/

section Reading

variable {ε : Type} {read : α → Except ε β}

theorem exists_of_bind_eq_ok {x : Except ε α} {b : β} (h : (x >>= read) = .ok b) :
    ∃ a, x = .ok a ∧ read a = .ok b := by
  rcases x with e | a
  · cases h
  · exact ⟨a, rfl, h⟩

theorem bind_eq_error {x : Except ε α} {e : ε} (h : (x >>= read) = .error e) :
    x = .error e ∨ ∃ a, x = .ok a ∧ read a = .error e := by
  rcases x with e' | a
  · cases h
    exact .inl rfl
  · exact .inr ⟨a, rfl, h⟩

theorem mapM_eq_error {e : ε} {l : List α} (h : l.mapM read = .error e) :
    ∃ a ∈ l, read a = .error e := by
  induction l with
  | nil => cases h
  | cons a l ih =>
    rw [List.mapM_cons] at h
    rcases bind_eq_error h with h | ⟨b, -, h⟩
    · exact ⟨a, List.mem_cons_self, h⟩
    · rcases bind_eq_error h with h | ⟨m, -, h⟩
      · obtain ⟨c, hc, h⟩ := ih h
        exact ⟨c, List.mem_cons_of_mem a hc, h⟩
      · cases h

theorem mapM_eq_ok {l : List α} (h : ∀ a ∈ l, ∃ b, read a = .ok b) :
    ∃ m, l.mapM read = .ok m ∧ List.Forall₂ (fun a b => read a = .ok b) l m := by
  induction l with
  | nil => exact ⟨[], rfl, .nil⟩
  | cons a l ih =>
    obtain ⟨b, hb⟩ := h a List.mem_cons_self
    obtain ⟨m, hm, hall⟩ := ih fun c hc => h c (List.mem_cons_of_mem a hc)
    exact ⟨b :: m, by rw [List.mapM_cons, hb, hm]; rfl, .cons hb hall⟩

theorem forall₂_of_mapM_eq_ok {l : List α} {m : List β} (h : l.mapM read = .ok m) :
    List.Forall₂ (fun a b => read a = .ok b) l m := by
  induction l generalizing m with
  | nil => cases h; exact .nil
  | cons a l ih =>
    rw [List.mapM_cons] at h
    obtain ⟨b, hb, h⟩ := exists_of_bind_eq_ok h
    obtain ⟨m, hm, h⟩ := exists_of_bind_eq_ok h
    cases h
    exact .cons hb (ih hm)

theorem mapM_eq_ok_of_forall₂ {l : List α} {m : List β}
    (h : List.Forall₂ (fun a b => read a = .ok b) l m) : l.mapM read = .ok m := by
  induction h with
  | nil => rfl
  | cons hab _ ih => rw [List.mapM_cons, hab, ih]; rfl

/-- Items that are read one by one are read together. -/
theorem mapM_eq_ok_map {φ : α → β} {l : List α} (h : ∀ a ∈ l, read a = .ok (φ a)) :
    l.mapM read = .ok (l.map φ) := by
  induction l with
  | nil => rfl
  | cons a l ih =>
    rw [List.mapM_cons, h a List.mem_cons_self, ih fun b hb => h b (List.mem_cons_of_mem a hb)]
    rfl

/-- Lists whose items are read alike are read alike. -/
theorem mapM_eq_of_forall₂ {γ : Type} {read' : γ → Except ε β} {l : List α} {m : List γ}
    (h : List.Forall₂ (fun a c => read a = read' c) l m) : l.mapM read = m.mapM read' := by
  induction h with
  | nil => rfl
  | cons hac _ ih => rw [List.mapM_cons, List.mapM_cons, hac, ih]

/-- Items of one block are all read as the same. -/
theorem mapM_blocks {γ : Type} {block : γ → List α} {φ : γ → β} {l : List γ}
    (h : ∀ c ∈ l, ∀ a ∈ block c, read a = .ok (φ c)) :
    (l.flatMap block).mapM read = .ok (l.flatMap fun c => (block c).map fun _ => φ c) := by
  induction l with
  | nil => rfl
  | cons c l ih =>
    obtain ⟨hc, hl⟩ := List.forall_mem_cons.mp h
    rw [List.flatMap_cons, List.mapM_append, mapM_eq_ok_map hc, ih hl]
    rfl

/-- Reading the keys of some items gives the items. -/
theorem mapM_map_eq_ok {key : β → α} {l : List β}
    (h : ∀ b ∈ l, read (key b) = .ok b) : (l.map key).mapM read = .ok l := by
  rw [List.mapM_map]
  exact (mapM_eq_ok_map (φ := id) h).trans (congrArg Except.ok (List.map_id l))

/-- Steps that all go well fold as the plain ones do. -/
theorem foldlM_eq_ok_foldl {step : β → α → Except ε β} {plain : β → α → β} {l : List α}
    (h : ∀ b, ∀ a ∈ l, step b a = .ok (plain b a)) (b : β) :
    l.foldlM step b = .ok (l.foldl plain b) := by
  induction l generalizing b with
  | nil => rfl
  | cons a l ih =>
    rw [List.foldlM_cons, h b a List.mem_cons_self]
    exact ih (fun b c hc => h b c (List.mem_cons_of_mem a hc)) (plain b a)

end Reading

end DecayForest
