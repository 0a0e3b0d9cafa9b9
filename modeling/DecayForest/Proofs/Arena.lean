import DecayForest.Arena
import Mathlib.Data.List.Nodup
import Mathlib.Data.List.Perm.Subperm
/-!
# Keys

What an arena finds under its keys after each change of it (`get?_insert`, `get?_modify`, `get?_remove`).
A key is *spent* once no value to come can get it: it is in use, or its time is over. A key in use is
spent, the next one is not, and no change makes a spent key unspent. So a spent key that finds nothing
will never find anything.

The values are counted over the slots. A list of all keys in use, each once, is as long as there are
values (`length_eq_count`).
-/

namespace DecayForest.Arena

variable {α : Type} {a b : Arena α} {j k : Key} {v w : α}

theorem getElem?_put_of_get? (h : a.get? k = some v) (s : Slot α) (n : Nat) :
    (Slot.put a.slots k.slot s)[n]? = if n = k.slot then some s else a.slots[n]? :=
  Slot.getElem?_put (Nat.le_of_lt (slot_lt_size h)) s n

theorem get?_eq_some_iff : a.get? k = some v ↔ a.slots[k.slot]? = some (.taken k.generation v) := by
  refine ⟨getElem?_of_get?, fun h => ?_⟩
  rw [get?, h, Option.bind_some, Slot.of?, if_pos rfl]

/-- No two keys in use share a slot. -/
theorem eq_of_slot_eq (hj : a.get? j = some v) (hk : a.get? k = some w) (h : j.slot = k.slot) :
    j = k := by
  have hsame := getElem?_of_get? hj
  rw [h, getElem?_of_get? hk] at hsame
  cases j
  cases k
  cases hsame
  cases h
  rfl

/-! ### One more value -/

theorem getElem?_next (a : Arena α) :
    a.slots[a.next.slot]? = none ∨ a.slots[a.next.slot]? = some .vacant := by
  unfold next
  rcases hfree : a.free with _ | ⟨n, rest⟩
  · exact .inl (Array.getElem?_eq_none (Nat.le_refl _))
  · have hn : n ∈ a.free := hfree ▸ List.mem_cons_self
    exact .inr (a.mem_free.mp hn)

theorem get?_of_slot_eq_next (h : k.slot = a.next.slot) : a.get? k = none := by
  rcases a.getElem?_next with hn | hn <;> rw [get?, h, hn] <;> rfl

theorem get?_insert (a : Arena α) (v : α) (k : Key) :
    (a.insert v).get? k = if k = a.next then some v else a.get? k := by
  show (Slot.put a.slots a.next.slot (.taken a.generation v))[k.slot]?.bind _ = _
  rw [Slot.getElem?_put a.next_slot_le]
  by_cases hslot : k.slot = a.next.slot
  · rw [if_pos hslot, get?_of_slot_eq_next hslot, Option.bind_some, Slot.of?]
    rcases k with ⟨n, g⟩
    obtain rfl : n = a.next.slot := hslot
    by_cases hg : g = a.generation
    · rw [if_pos hg.symm, if_pos (hg ▸ rfl)]
    · rw [if_neg (Ne.symm hg), if_neg fun h => hg (congrArg Key.generation h)]
  · rw [if_neg hslot, if_neg fun h => hslot (congrArg Key.slot h), get?]

/-! ### Another value, or none -/

theorem modify_of_none (h : a.get? k = none) (change : α → α) : a.modify k change = a := by
  unfold modify
  split
  · rfl
  · next h' => cases h.symm.trans h'

theorem slots_modify (h : a.get? k = some v) (change : α → α) :
    (a.modify k change).slots = Slot.put a.slots k.slot (.taken k.generation (change v)) := by
  unfold modify
  split
  · next h' => cases h.symm.trans h'
  · next h' => cases h.symm.trans h'; rfl

theorem remove_of_none (h : a.get? k = none) : a.remove k = a := by
  unfold remove
  split
  · rfl
  · next h' => cases h.symm.trans h'

theorem slots_remove (h : a.get? k = some v) :
    (a.remove k).slots = Slot.put a.slots k.slot .vacant := by
  unfold remove
  split
  · next h' => cases h.symm.trans h'
  · rfl

/-- A key with the slot of a key in use finds nothing if it is another one. -/
theorem get?_eq_none_of_ne (h : a.get? k = some v) (hslot : j.slot = k.slot) (hne : j ≠ k) :
    a.get? j = none :=
  Option.eq_none_iff_forall_ne_some.mpr fun _ hj => hne (eq_of_slot_eq hj h hslot)

theorem get?_modify (a : Arena α) (k : Key) (change : α → α) (j : Key) :
    (a.modify k change).get? j = if j = k then (a.get? k).map change else a.get? j := by
  rcases h : a.get? k with _ | v
  · rw [modify_of_none h]
    split
    · next hj => rw [hj, h]; rfl
    · rfl
  rw [get?, slots_modify h, getElem?_put_of_get? h]
  by_cases hj : j = k
  · rw [if_pos hj, hj, if_pos rfl, Option.bind_some, Slot.of?, if_pos rfl, Option.map_some]
  rw [if_neg hj]
  by_cases hslot : j.slot = k.slot
  · have hg : k.generation ≠ j.generation := by
      rcases j with ⟨n, g⟩
      rintro rfl
      exact hj (congrArg (Key.mk · k.generation) hslot)
    rw [if_pos hslot, get?_eq_none_of_ne h hslot hj, Option.bind_some, Slot.of?, if_neg hg]
  · rw [if_neg hslot, get?]

theorem get?_remove (a : Arena α) (k j : Key) :
    (a.remove k).get? j = if j = k then none else a.get? j := by
  rcases h : a.get? k with _ | v
  · rw [remove_of_none h]
    split
    · next hj => rw [hj, h]
    · rfl
  rw [get?, slots_remove h, getElem?_put_of_get? h]
  by_cases hslot : j.slot = k.slot
  · rw [if_pos hslot, Option.bind_some, Slot.of?]
    split
    · rfl
    · next hj => rw [get?_eq_none_of_ne h hslot hj]
  · rw [if_neg hslot, if_neg fun hj => hslot (congrArg Key.slot hj), get?]

/-! ### Spent keys -/

/-- No value that is added from now on gets this key. -/
def Spent (a : Arena α) (k : Key) : Prop :=
  k.generation < a.generation ∨
    k.generation = a.generation ∧ k.slot < a.slots.size ∧ k.slot ∉ a.free

/-- What an arena gives keys out by. -/
def frame (a : Arena α) : Nat × List Nat × Nat :=
  (a.slots.size, a.free, a.generation)

theorem spent_of_get? (h : a.get? k = some v) : a.Spent k := by
  have hslot := getElem?_of_get? h
  rcases Nat.lt_or_eq_of_le (a.le_generation hslot) with hlt | heq
  · exact .inl hlt
  · refine .inr ⟨heq, slot_lt_size h, fun hfree => ?_⟩
    cases hslot.symm.trans (a.mem_free.mp hfree)

theorem not_spent_next (a : Arena α) : ¬ a.Spent a.next := by
  rintro (hlt | ⟨-, hlt, hfree⟩)
  · exact Nat.lt_irrefl _ hlt
  · rcases a.getElem?_next with hn | hn
    · exact Nat.not_le_of_lt hlt (Array.getElem?_eq_none_iff.mp hn)
    · exact hfree (a.mem_free.mpr hn)

theorem spent_insert : (a.insert v).Spent k ↔ k = a.next ∨ a.Spent k := by
  have hnext : k = a.next ↔ k.slot = a.next.slot ∧ k.generation = a.generation := by
    cases k
    exact Key.mk.injEq .. ▸ Iff.rfl
  have hsize : k.slot < (a.insert v).slots.size ↔ k.slot < a.slots.size ∨ k.slot = a.next.slot := by
    have hle := a.next_slot_le
    rw [insert, Slot.size_put hle]
    omega
  have hfree : k.slot ∉ (a.insert v).free ↔ k.slot = a.next.slot ∨ k.slot ∉ a.free := by
    show k.slot ∉ a.free.tail ↔ _
    rw [mem_tail_free, not_and_or, not_not]
  unfold Spent
  rw [hsize, hfree, hnext]
  show k.generation < a.generation ∨ k.generation = a.generation ∧ _ ↔ _
  grind

@[simp] theorem frame_modify (a : Arena α) (k : Key) (change : α → α) :
    (a.modify k change).frame = a.frame := by
  unfold modify
  split
  · rfl
  · next v h =>
    have hsize := Slot.size_put (Nat.le_of_lt (slot_lt_size h)) (.taken k.generation (change v))
    rw [Nat.max_eq_left (slot_lt_size h)] at hsize
    exact congrArg (·, a.free, a.generation) hsize

theorem spent_congr (h : a.frame = b.frame) : a.Spent k ↔ b.Spent k := by
  simp only [frame, Prod.mk.injEq] at h
  rw [Spent, Spent, h.1, h.2.1, h.2.2]

theorem Spent.remove (h : a.Spent k) (j : Key) : (a.remove j).Spent k := by
  unfold Arena.remove
  split
  · exact h
  · rcases h with hlt | ⟨heq, -, -⟩
    · exact .inl (Nat.lt_succ_of_lt hlt)
    · exact .inl (Nat.lt_succ_of_le (Nat.le_of_eq heq))

/-- An arena is what it finds under its keys, with what it gives keys out by. -/
theorem eq_of_get? (hframe : a.frame = b.frame) (h : ∀ k, a.get? k = b.get? k) : a = b := by
  simp only [frame, Prod.mk.injEq] at hframe
  obtain ⟨hsize, hfree, hgeneration⟩ := hframe
  have hslots : a.slots = b.slots := by
    refine Array.ext_getElem? fun n => ?_
    rcases ha : a.slots[n]? with _ | _ | ⟨g, v⟩
    · rw [Array.getElem?_eq_none_iff] at ha
      exact (Array.getElem?_eq_none (hsize ▸ ha)).symm
    · exact (b.mem_free.mp (hfree ▸ a.mem_free.mpr ha)).symm
    · exact (get?_eq_some_iff.mp ((h ⟨n, g⟩).symm.trans (get?_eq_some_iff.mpr ha))).symm
  cases a
  cases b
  congr

/-! ### Counting -/

/-- The key in use for a slot. -/
private def key? (a : Arena α) (n : Nat) : Option Key :=
  a.slots[n]?.bind fun s =>
    match s with
    | .taken g _ => some ⟨n, g⟩
    | .vacant => none

/-- The keys in use, slot by slot. -/
def keys (a : Arena α) : List Key :=
  (List.range a.slots.size).filterMap a.key?

private theorem key?_eq_some_iff {n : Nat} : a.key? n = some k ↔ k.slot = n ∧ ∃ v, a.get? k = some v := by
  simp only [get?_eq_some_iff]
  unfold key?
  rcases hn : a.slots[n]? with _ | _ | ⟨g, v⟩
  · grind
  · grind
  · grind [Key]

theorem mem_keys : k ∈ a.keys ↔ ∃ v, a.get? k = some v := by
  simp only [keys, List.mem_filterMap, key?_eq_some_iff]
  constructor
  · rintro ⟨n, -, -, hv⟩
    exact hv
  · rintro ⟨v, hv⟩
    exact ⟨k.slot, List.mem_range.mpr (slot_lt_size hv), rfl, v, hv⟩

theorem nodup_keys (a : Arena α) : a.keys.Nodup := by
  refine List.Nodup.filterMap (fun n m k hn hm => ?_) List.nodup_range
  rw [← (key?_eq_some_iff.mp hn).1, ← (key?_eq_some_iff.mp hm).1]

private theorem countP_range (l : List (Slot α)) :
    (List.range l.length).countP (fun n => l[n]?.any Slot.isTaken) = l.countP Slot.isTaken := by
  induction l with
  | nil => rfl
  | cons s l ih =>
    rw [List.length_cons, List.range_succ_eq_map, List.countP_cons, List.countP_map,
      List.countP_cons, ← ih]
    rfl

theorem length_keys (a : Arena α) : a.keys.length = a.count := by
  have hkey : ∀ n, (a.key? n).isSome = a.slots.toList[n]?.any Slot.isTaken := by
    intro n
    unfold key?
    rw [Array.getElem?_toList]
    rcases a.slots[n]? with _ | _ | _ <;> rfl
  rw [keys, List.length_filterMap_eq_countP, count, ← Array.countP_toList, ← countP_range,
    Array.length_toList]
  simp only [hkey]

/-- A list of all keys in use, each once, has as many items as there are values. -/
theorem length_eq_count {l : List Key} (hl : l.Nodup) (hlive : ∀ k, k ∈ l ↔ ∃ v, a.get? k = some v) :
    l.length = a.count := by
  rw [← length_keys]
  refine ((List.perm_ext_iff_of_nodup hl a.nodup_keys).mpr fun k => ?_).length_eq
  rw [hlive, mem_keys]

/-- Values under new keys count on top of the others. -/
theorem count_eq_add {new : List Key} (hold : ∀ k, a.Spent k → (b.get? k).isSome = (a.get? k).isSome)
    (hnodup : new.Nodup) (hnew : ∀ k, k ∈ new ↔ ¬ a.Spent k ∧ ∃ v, b.get? k = some v) :
    b.count = a.count + new.length := by
  rw [← length_keys a, ← List.length_append]
  refine (length_eq_count ?_ fun k => ?_).symm
  · refine List.nodup_append.mpr ⟨a.nodup_keys, hnodup, ?_⟩
    rintro k hk _ hknew rfl
    obtain ⟨v, hv⟩ := mem_keys.mp hk
    exact ((hnew k).mp hknew).1 (spent_of_get? hv)
  · rw [List.mem_append, mem_keys, hnew, ← Option.isSome_iff_exists, ← Option.isSome_iff_exists]
    by_cases hk : a.Spent k
    · rw [hold k hk]
      simp [hk]
    · have hnone : a.get? k = none :=
        Option.eq_none_iff_forall_ne_some.mpr fun v hv => hk (spent_of_get? hv)
      simp [hk, hnone]

/-- No more keys are in use than there are slots. -/
theorem length_le_size {l : List Key} (hl : l.Nodup) (hlive : ∀ k ∈ l, ∃ v, a.get? k = some v) :
    l.length ≤ a.slots.size := by
  have hsub : l ⊆ a.keys := fun k hk => mem_keys.mpr (hlive k hk)
  calc l.length ≤ a.keys.length := (List.subperm_of_subset hl hsub).length_le
    _ ≤ (List.range a.slots.size).length := List.length_filterMap_le ..
    _ = a.slots.size := List.length_range

end DecayForest.Arena
