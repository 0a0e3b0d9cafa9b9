import DecayForest.Group.Drawing
import DecayForest.Proofs.Group.Contents
/-!
# What can be written and drawn

A group can be written and drawn where each root has a tree that is not too high and all names and texts
in it have a spelling (`Group.Stands`). What is read is such a group (`Group.stands_of_read`): names with
quotes or line breaks do not come out of a document, and the depths of the roots have been checked.
-/

namespace DecayForest

open Grammar

/-! ### Trees -/

theorem Particle.quotable_uniqueName {P : Particle} (h : Quotable P.type) : Quotable P.uniqueName := by
  rw [Quotable, toList_uniqueName, List.all_append, Bool.and_eq_true]
  refine ⟨h, List.all_eq_true.mpr fun c hc => ?_⟩
  rcases List.mem_cons.mp hc with rfl | hc
  · decide
  · have hdigit := Nat.isDigit_of_mem_toDigits (by decide) (by decide) hc
    refine isQuotable_of_isWordChar ?_
    simp [isWordChar, isIdChar, Char.isAlphanum, hdigit]

/-- All names and texts in a tree are of one sort, and its parameters are as a document may state
them. -/
def Tree.Worded (sort : String → Prop) : Tree → Prop :=
  All (fun type params => sort type ∧ params.Worded sort) (ParamList.Worded sort)

theorem Forest.Shows.worded_iff {f : Forest} {parent : Option ParticleId} {t : Tree}
    (h : f.Shows parent t) {sort : String → Prop} :
    t.Worded sort ↔ ∀ x ∈ t.ids, f.WordedAt sort x := by
  refine h.all_iff.trans (forall₂_congr fun x _ => forall₂_congr fun X _ => ?_)
  exact and_assoc

namespace Writing

theorem exists_name {s : String} (h : Quotable s) : ∃ w, name s = .ok w := by
  unfold name written?
  split
  · exact ⟨_, rfl⟩
  · next hnone =>
    split at hnone
    · cases hnone
    · rw [if_pos (show s.toList.all isQuotable = true from h)] at hnone
      cases hnone

mutual

theorem exists_value : ∀ (v : Value), v.Worded Quotable → ∃ w, value v = .ok w
  | .flag on, h => by
    obtain rfl : on = true := h
    exact ⟨"true", rfl⟩
  | .text s, h => exists_name h
  | .record es, h => by
    obtain ⟨texts, htexts⟩ := exists_entries es h.2
    exact ⟨bracketed texts, by rw [value, htexts]; rfl⟩

theorem exists_entries : ∀ (es : List (String × Value)), Value.WordedEntries Quotable es →
    ∃ texts, entries es = .ok texts
  | [], _ => ⟨[], rfl⟩
  | (key, v) :: es, h => by
    obtain ⟨hkey, hv, hes⟩ := h
    obtain ⟨k, hk⟩ := exists_name hkey
    obtain ⟨w, hw⟩ := exists_value v hv
    obtain ⟨others, hothers⟩ := exists_entries es hes
    rw [entries, hk]
    dsimp only [bind, Except.bind]
    split
    · exact ⟨k :: others, by rw [hothers]; rfl⟩
    · exact ⟨(k ++ "=" ++ w) :: others, by rw [hw, hothers]; rfl⟩

end

theorem exists_groupParam {e : String × Value} (hkey : Quotable e.1) (hv : e.2.Worded Quotable) :
    ∃ text, groupParam e = .ok text := by
  obtain ⟨k, hk⟩ := exists_name hkey
  obtain ⟨w, hw⟩ := exists_value e.2 hv
  exact ⟨k ++ " = " ++ w ++ ";\n", by rw [groupParam, hk, hw]; rfl⟩

variable {f : Forest} {parent : Option ParticleId} {t : Tree}

theorem exists_identifier (ht : f.Shows parent t) (h : t.Worded Quotable) :
    ∃ w, identifier f t.id = .ok w := by
  obtain ⟨T, hT, -, -, heq⟩ := ht.top
  rw [identifier_of_some hT, Forest.called_of_some hT]
  rw [heq] at h
  exact exists_name (Particle.quotable_uniqueName (Tree.all_node.mp h).1.1)

theorem exists_branch {own : String} {b : Branch}
    (hproducts : ∀ u ∈ b.products, ∃ w, identifier f u.id = .ok w)
    (hparams : b.params.Worded Quotable) : ∃ text, branch f own b = .ok text := by
  rcases b with ⟨d, params, products⟩
  obtain ⟨ws, hws, -⟩ := mapM_eq_ok (l := products) hproducts
  obtain ⟨list, hlist⟩ := exists_entries params.entries hparams.entries
  rw [branch, hws]
  dsimp only [bind, Except.bind]
  split
  · exact ⟨_, rfl⟩
  · rw [hlist]
    exact ⟨_, rfl⟩

theorem exists_tree (ht : f.Shows parent t) (h : t.Worded Quotable) : ∃ text, tree f t = .ok text := by
  induction t using Tree.induction generalizing parent with
  | node id type params branches ih =>
    obtain ⟨own, hown⟩ := exists_identifier ht h
    obtain ⟨⟨htype, hparams⟩, hbelow⟩ := Tree.all_node.mp h
    obtain ⟨texts, htexts, -⟩ := mapM_eq_ok (l := branches.flatMap Branch.products)
      fun u hu => show ∃ text, tree f u = .ok text by
        obtain ⟨b, hb, hub⟩ := List.mem_flatMap.mp hu
        exact ih b hb u hub (ht.product hb hub) ((hbelow b hb).2 u hub)
    obtain ⟨list, hlist⟩ := exists_entries (typed type params)
      (worded_typed (by decide) htype hparams).1
    obtain ⟨decays, hdecays, -⟩ := mapM_eq_ok (l := branches)
      fun b hb => show ∃ text, branch f own b = .ok text from exists_branch
        (fun u hu => exists_identifier (ht.product hb hu) ((hbelow b hb).2 u hu)) (hbelow b hb).1
    refine ⟨String.join texts ++ own ++ bracketed list ++ ";\n" ++ String.join decays, ?_⟩
    rw [Tree.id_node] at hown
    rw [tree, belowAll_eq, htexts, hown, hlist]
    dsimp only [bind, Except.bind, Functor.map, Except.map]
    rw [hdecays]
    rfl

end Writing

namespace Forest

variable {f : Forest} {t : Tree} {id : ParticleId} {parent : Option ParticleId}

/-- Each of some particles is on top of a tree, and the trees have a property. -/
def Plants (f : Forest) (good : Tree → Prop) (roots : List ParticleId) : Prop :=
  ∀ r ∈ roots, ∃ t, f.Shows none t ∧ t.id = r ∧ good t

theorem exists_written (htree : f.tree id = .ok t) (ht : f.Shows parent t)
    (hworded : t.Worded Quotable) : ∃ text, f.written id = .ok text := by
  rw [written, htree]
  exact Writing.exists_tree ht hworded

theorem exists_outline (htree : f.tree id = .ok t) : ∃ drawing, f.outline id = .ok drawing :=
  ⟨Drawing.tree t, by rw [outline, htree]; rfl⟩

end Forest

/-! ### Groups -/

namespace Group

open Forest

variable {g : Group} {database : Database} {source : String}

/-- A group that can be shown and written: its roots have trees that are not too high, and all that is
said in it can be spelled. -/
structure Stands (g : Group) : Prop where
  linked : Linked g.forest
  rooted : g.forest.Plants (fun t => t.height ≤ maxDepth ∧ t.Worded Quotable) g.roots
  params : ∀ e ∈ g.params.entries, Quotable e.1 ∧ e.2.Worded Quotable

theorem stands_of_read (hg : Group.read database source = .ok g) : g.Stands where
  linked := (arises_of_read hg).linked
  rooted r hr := by
    obtain ⟨t, ht, rfl, htree⟩ := exists_tree_of_read hg r hr
    refine ⟨t, ht, rfl, ?_, ht.worded_iff.mpr fun x hx => ?_⟩
    · rw [ht.tree_eq (arises_of_read hg).linked] at htree
      split at htree
      · cases htree
      · next hheight => exact Nat.le_of_not_lt hheight
    · exact (read_worded hg).below t.id hr x (ht.above hx)
  params e he := ⟨((read_worded hg).params e he).1, ((read_worded hg).params e he).2.1⟩

namespace Stands

variable (hg : g.Stands)
include hg

theorem exists_tree {r : ParticleId} (hr : r ∈ g.roots) :
    ∃ t, g.forest.tree r = .ok t ∧ g.forest.Shows none t ∧ t.Worded Quotable := by
  obtain ⟨t, ht, rfl, hheight, hworded⟩ := hg.rooted r hr
  exact ⟨t, ht.tree_of_le hg.linked hheight, ht, hworded⟩

theorem exists_written : ∃ text, g.written = .ok text := by
  obtain ⟨texts, htexts, -⟩ := mapM_eq_ok (l := g.roots) fun r hr =>
      show ∃ text, g.forest.written r = .ok text by
    obtain ⟨t, htree, ht, hworded⟩ := hg.exists_tree hr
    exact Forest.exists_written htree ht hworded
  obtain ⟨paramTexts, hparamTexts, -⟩ := mapM_eq_ok (l := g.params.entries) fun e he =>
    Writing.exists_groupParam (hg.params e he).1 (hg.params e he).2
  exact ⟨String.join texts ++ String.join paramTexts, by rw [written, htexts, hparamTexts]; rfl⟩

theorem exists_outline : ∃ drawing, g.outline = .ok drawing := by
  obtain ⟨items, hitems, -⟩ := mapM_eq_ok (l := g.roots) fun r hr =>
      show ∃ drawing, g.forest.outline r = .ok drawing by
    obtain ⟨t, htree, -⟩ := hg.exists_tree hr
    exact Forest.exists_outline htree
  exact ⟨.node (Drawing.label "ProcessGroup" g.params) items, by rw [outline, hitems]; rfl⟩

end Stands

/-- What is read can be written. -/
theorem exists_written (hg : Group.read database source = .ok g) : ∃ text, g.written = .ok text :=
  (stands_of_read hg).exists_written

end Group

end DecayForest
