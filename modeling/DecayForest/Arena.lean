/-!
# Arenas

An arena keeps values in slots. A key is a slot and the generation in which that slot was taken, and
finds the value as long as it is there. When a value is removed, its slot may be taken again and a new
generation begins, so no key is ever given out twice. The slot that was freed last is taken first, and
one more is added once none is free.
-/

namespace DecayForest

/-- Where an arena keeps a value. -/
structure Key where
  slot : Nat
  /-- The generation in which the slot was taken. -/
  generation : Nat
deriving DecidableEq, Repr

/-- What stands in a slot. -/
inductive Slot (α : Type) where
  | vacant
  | taken (generation : Nat) (v : α)

namespace Slot

variable {α : Type}

/-- The value that was put into a slot in a given generation. -/
def of? (generation : Nat) : Slot α → Option α
  | taken g v => if g = generation then some v else none
  | vacant => none

/-- There is a value in the slot. -/
def isTaken : Slot α → Bool
  | taken _ _ => true
  | vacant => false

/-- The slots with another content of the `n`-th one, or with one more. -/
def put (slots : Array (Slot α)) (n : Nat) (s : Slot α) : Array (Slot α) :=
  if n < slots.size then slots.setIfInBounds n s else slots.push s

theorem getElem?_put {slots : Array (Slot α)} {n : Nat} (hn : n ≤ slots.size) (s : Slot α) (m : Nat) :
    (put slots n s)[m]? = if m = n then some s else slots[m]? := by
  unfold put
  by_cases hlt : n < slots.size
  · rw [if_pos hlt, Array.getElem?_setIfInBounds, if_pos hlt]
    by_cases hm : m = n
    · rw [if_pos hm.symm, if_pos hm]
    · rw [if_neg (Ne.symm hm), if_neg hm]
  · rw [if_neg hlt, Array.getElem?_push, Nat.le_antisymm hn (Nat.le_of_not_lt hlt)]

theorem size_put {slots : Array (Slot α)} {n : Nat} (hn : n ≤ slots.size) (s : Slot α) :
    (put slots n s).size = max slots.size (n + 1) := by
  unfold put
  split
  · rw [Array.size_setIfInBounds]
    omega
  · rw [Array.size_push]
    omega

end Slot

/-- Values in slots. -/
structure Arena (α : Type) where
  slots : Array (Slot α)
  /-- The vacant slots, in the order in which they are taken. -/
  free : List Nat
  /-- The number of values that have been removed. -/
  generation : Nat
  mem_free : ∀ {n : Nat}, n ∈ free ↔ slots[n]? = some .vacant
  nodup_free : free.Nodup
  le_generation : ∀ {n g : Nat} {v : α}, slots[n]? = some (.taken g v) → g ≤ generation

namespace Arena

variable {α : Type} {a : Arena α} {k : Key} {v : α}

/-- The arena without values. -/
def empty : Arena α where
  slots := #[]
  free := []
  generation := 0
  mem_free := ⟨nofun, nofun⟩
  nodup_free := .nil
  le_generation := nofun

/-- The value of a key. -/
def get? (a : Arena α) (k : Key) : Option α :=
  a.slots[k.slot]?.bind (Slot.of? k.generation)

/-- The number of values. -/
def count (a : Arena α) : Nat :=
  a.slots.countP Slot.isTaken

/-- The key of the value that is added next. -/
def next (a : Arena α) : Key :=
  ⟨a.free.headD a.slots.size, a.generation⟩

theorem getElem?_of_get? (h : a.get? k = some v) :
    a.slots[k.slot]? = some (.taken k.generation v) := by
  obtain ⟨s, hs, hv⟩ := Option.bind_eq_some_iff.mp h
  rw [hs]
  cases s with
  | vacant => cases hv
  | taken g w =>
    rw [Slot.of?] at hv
    split at hv
    · next hg => cases hv; rw [hg]
    · cases hv

theorem slot_lt_size (h : a.get? k = some v) : k.slot < a.slots.size :=
  (Array.getElem?_eq_some_iff.mp (getElem?_of_get? h)).1

theorem next_slot_le (a : Arena α) : a.next.slot ≤ a.slots.size := by
  unfold next
  rcases hfree : a.free with _ | ⟨n, rest⟩
  · exact Nat.le_refl _
  · have hn := a.mem_free.mp (hfree ▸ List.mem_cons_self : n ∈ a.free)
    exact Nat.le_of_lt (Array.getElem?_eq_some_iff.mp hn).1

/-- The next slot is the only one that is not free any more once it is taken. -/
theorem mem_tail_free {n : Nat} : n ∈ a.free.tail ↔ n ≠ a.next.slot ∧ n ∈ a.free := by
  unfold next
  rcases hfree : a.free with _ | ⟨m, rest⟩
  · exact ⟨nofun, nofun⟩
  · have hm : m ∉ rest := (List.nodup_cons.mp (hfree ▸ a.nodup_free)).1
    rw [List.tail_cons, List.headD_cons, List.mem_cons]
    constructor
    · intro hn
      exact ⟨ne_of_mem_of_not_mem hn hm, .inr hn⟩
    · rintro ⟨hne, hn⟩
      exact hn.resolve_left hne

/-- Adds a value, with `next` for its key. -/
def insert (a : Arena α) (v : α) : Arena α where
  slots := Slot.put a.slots a.next.slot (.taken a.generation v)
  free := a.free.tail
  generation := a.generation
  mem_free {n} := by
    rw [Slot.getElem?_put a.next_slot_le, mem_tail_free, a.mem_free]
    split <;> simp [*]
  nodup_free := a.nodup_free.tail
  le_generation {n g w} h := by
    rw [Slot.getElem?_put a.next_slot_le] at h
    split at h
    · cases h
      exact Nat.le_refl _
    · exact a.le_generation h

/-- Changes the value of a key, if there is one. -/
def modify (a : Arena α) (k : Key) (change : α → α) : Arena α :=
  match h : a.get? k with
  | none => a
  | some v =>
    { a with
      slots := Slot.put a.slots k.slot (.taken k.generation (change v))
      mem_free {n} := by
        rw [Slot.getElem?_put (Nat.le_of_lt (slot_lt_size h)), a.mem_free]
        split
        · next hn => simp [hn, getElem?_of_get? h]
        · rfl
      le_generation {n g w} hw := by
        rw [Slot.getElem?_put (Nat.le_of_lt (slot_lt_size h))] at hw
        split at hw
        · cases hw
          exact a.le_generation (getElem?_of_get? h)
        · exact a.le_generation hw }

/-- Removes the value of a key, if there is one. -/
def remove (a : Arena α) (k : Key) : Arena α :=
  match h : a.get? k with
  | none => a
  | some v =>
    { slots := Slot.put a.slots k.slot .vacant
      free := k.slot :: a.free
      generation := a.generation + 1
      mem_free {n} := by
        rw [Slot.getElem?_put (Nat.le_of_lt (slot_lt_size h)), List.mem_cons, a.mem_free]
        split <;> simp [*]
      nodup_free := by
        refine List.nodup_cons.mpr ⟨fun hk => ?_, a.nodup_free⟩
        cases (getElem?_of_get? h).symm.trans (a.mem_free.mp hk)
      le_generation {n g w} hw := by
        rw [Slot.getElem?_put (Nat.le_of_lt (slot_lt_size h))] at hw
        split at hw
        · cases hw
        · exact Nat.le_succ_of_le (a.le_generation hw) }

end Arena

end DecayForest
