import DecayForest.Params
import Mathlib.Data.List.Induction
import Mathlib.Data.List.Sort
/-!
# Parameter lists as maps

As its names ascend, a parameter list is the map of its names: it is determined by its values
(`ParamList.ext_value?`), and it is the list of its own entries.
-/

namespace DecayForest

section Ascending

variable {es es' : List (String × Value)} {e : String × Value} {k name : String} {v : Value}

theorem Ascending.ne_of_mem (h : Ascending ((k, v) :: es)) (he : e ∈ es) : e.1 ≠ k := by
  rintro rfl
  exact String.lt_irrefl _ ((List.pairwise_cons.mp h).1 e he)

theorem Ascending.lookup_tail (h : Ascending ((k, v) :: es)) : es.lookup k = none :=
  List.lookup_eq_none_iff.mpr fun _ he => bne_iff_ne.mpr (h.ne_of_mem he).symm

theorem Ascending.lookup_eq_some_iff (h : Ascending es) : es.lookup k = some v ↔ (k, v) ∈ es := by
  induction es with
  | nil => exact iff_of_false nofun List.not_mem_nil
  | cons e es ih =>
    obtain ⟨k', v'⟩ := e
    have ih := ih (List.pairwise_cons.mp h).2
    by_cases hk : k = k'
    · subst hk
      rw [List.lookup_cons_self, List.mem_cons, Option.some.injEq, Prod.mk.injEq]
      have hnot : (k, v) ∉ es := fun hmem => h.ne_of_mem hmem rfl
      grind
    · rw [List.lookup_cons, beq_false_of_ne hk, ih, List.mem_cons, Prod.mk.injEq]
      grind

/-- Ascending entries are determined by what stands under each name. -/
theorem Ascending.ext (h : Ascending es) (h' : Ascending es')
    (hsame : ∀ name, es.lookup name = es'.lookup name) : es = es' := by
  have : Std.Irrefl fun a b : String × Value => a.1 < b.1 := ⟨fun a => String.lt_irrefl a.1⟩
  have : Std.Antisymm fun a b : String × Value => a.1 < b.1 :=
    ⟨fun _ _ hab hba => absurd hba (String.lt_asymm hab)⟩
  refine List.Pairwise.eq_of_mem_iff h h' fun ⟨k, v⟩ => ?_
  rw [← h.lookup_eq_some_iff, hsame, h'.lookup_eq_some_iff]

end Ascending

namespace ParamList

/-- Lists on top of each other. Of several lists that have a name the last one counts. -/
def layered (lists : List ParamList) : ParamList :=
  lists.foldl overlay ∅

variable {ps qs base top : ParamList} {lists : List ParamList} {es : List (String × Value)}
  {e : String × Value} {name : String} {v : Value}

theorem mem_putAll (h : e ∈ (base.putAll es).entries) : e ∈ base.entries ∨ e ∈ es := by
  unfold putAll at h
  induction es generalizing base with
  | nil => exact .inl h
  | cons c es ih =>
    rcases ih h with h | h
    · rcases mem_putEntry h with rfl | h
      · exact .inr List.mem_cons_self
      · exact .inl h
    · exact .inr (List.mem_cons_of_mem c h)

theorem eq_empty_of_entries (h : ps.entries = []) : ps = ∅ :=
  ParamList.ext h

theorem ofEntries_cons (name : String) (v : Value) (ps : ParamList) :
    ofEntries ((name, v) :: ps.entries) = (put name v ∅).overlay ps := rfl

theorem mem_overlay (h : e ∈ (base.overlay top).entries) : e ∈ base.entries ∨ e ∈ top.entries :=
  mem_putAll h

theorem mem_ofEntries (h : e ∈ (ofEntries es).entries) : e ∈ es :=
  (mem_putAll h).resolve_left List.not_mem_nil

theorem mem_of_value? (h : ps.value? name = some v) : (name, v) ∈ ps.entries :=
  ps.ascending.lookup_eq_some_iff.mp h

/-! ### Values -/

theorem value?_without (name other : String) (ps : ParamList) :
    value? other (without name ps) = if other = name then none else value? other ps := by
  show (ps.entries.filter _).lookup other = if other = name then none else ps.entries.lookup other
  induction ps.entries with
  | nil => exact (ite_self _).symm
  | cons e es ih =>
    obtain ⟨k, v⟩ := e
    rw [List.filter_cons, List.lookup_cons]
    grind

theorem value?_putAll (h : Ascending es) (name : String) (base : ParamList) :
    (base.putAll es).value? name = (es.lookup name).or (base.value? name) := by
  unfold putAll
  induction es generalizing base with
  | nil => rfl
  | cons e es ih =>
    obtain ⟨k, v⟩ := e
    rw [List.foldl_cons, ih (List.pairwise_cons.mp h).2]
    by_cases hk : name = k
    · subst hk
      rw [value?_put_self, h.lookup_tail, List.lookup_cons_self]
      rfl
    · rw [value?_put_of_ne hk, List.lookup_cons, beq_false_of_ne hk]

/-- What stands on top counts, and what is below it where the top has nothing. -/
theorem value?_overlay (name : String) (base top : ParamList) :
    (base.overlay top).value? name = (top.value? name).or (base.value? name) :=
  value?_putAll top.ascending name base

/-- A list is determined by its values. -/
theorem ext_value? (h : ∀ name, ps.value? name = qs.value? name) : ps = qs :=
  ParamList.ext (ps.ascending.ext qs.ascending h)

theorem overlay_self (ps : ParamList) : ps.overlay ps = ps :=
  ext_value? fun name => by rw [value?_overlay, Option.or_self]

theorem empty_overlay (ps : ParamList) : overlay ∅ ps = ps :=
  ext_value? fun name => by rw [value?_overlay]; exact Option.or_none

/-- A list is the list of its entries. -/
theorem ofEntries_entries (ps : ParamList) : ofEntries ps.entries = ps :=
  empty_overlay ps

/-- The list of ascending entries has just these. -/
theorem entries_ofEntries (h : Ascending es) : (ofEntries es).entries = es :=
  congrArg entries (ofEntries_entries ⟨es, h⟩)

/-! ### Lists on top of each other -/

theorem layered_concat (lists : List ParamList) (l : ParamList) :
    layered (lists ++ [l]) = (layered lists).overlay l := by
  rw [layered, List.foldl_append]
  rfl

theorem layered_singleton (l : ParamList) : layered [l] = l :=
  empty_overlay l

theorem value?_layered (lists : List ParamList) (name : String) :
    value? name (layered lists) = lists.reverse.findSome? (value? name) := by
  induction lists using List.reverseRecOn with
  | nil => rfl
  | append_singleton lists l ih =>
    rw [layered_concat, value?_overlay, ih, List.reverse_concat, List.findSome?_cons]
    cases value? name l <;> rfl

end ParamList

end DecayForest
