/-!
# Pieces of a text

`pieces` cuts a text at each occurrence of a mark. There is one piece more than there are marks, and
with the marks between them the pieces are the text again.
-/

namespace DecayForest.Text

/-- The pieces of a text between marks, the first one after the characters `taken` in reverse. -/
def piecesFrom (mark : Char) (taken : List Char) : List Char → List (List Char)
  | [] => [taken.reverse]
  | c :: s =>
    if c = mark then taken.reverse :: piecesFrom mark [] s else piecesFrom mark (c :: taken) s

/-- The pieces of a text between marks. -/
def pieces (mark : Char) (s : List Char) : List (List Char) :=
  piecesFrom mark [] s

theorem length_piecesFrom (mark : Char) (taken s : List Char) :
    (piecesFrom mark taken s).length = s.count mark + 1 := by
  induction s generalizing taken with
  | nil => rfl
  | cons c s ih => by_cases h : c = mark <;> simp [piecesFrom, h, ih]

theorem intercalate_piecesFrom (mark : Char) (taken s : List Char) :
    [mark].intercalate (piecesFrom mark taken s) = taken.reverse ++ s := by
  induction s generalizing taken with
  | nil => simp [piecesFrom]
  | cons c s ih =>
    by_cases h : c = mark
    · have hne : piecesFrom mark [] s ≠ [] := fun he => by
        simpa [he] using length_piecesFrom mark [] s
      obtain ⟨p, ps, hp⟩ := List.exists_cons_of_ne_nil hne
      simpa [piecesFrom, h, hp, List.intercalate] using hp ▸ ih []
    · simp [piecesFrom, h, ih]

theorem intercalate_pieces (mark : Char) (s : List Char) :
    [mark].intercalate (pieces mark s) = s :=
  intercalate_piecesFrom mark [] s

end DecayForest.Text
