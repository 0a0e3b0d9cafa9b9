import DecayForest.Grammar.Outcome
/-!
# Blanks and comments

Between two tokens may stand white space, line comments opened by `//` or `#`, and block comments.
-/

namespace DecayForest.Grammar

/-- Whether a character separates tokens by itself. -/
def isSpace (c : Char) : Bool :=
  c = ' ' || c = '\t' || c = '\n' || c = '\r'

/-- Where a reader of blanks stands. -/
inductive Gap where
  /-- Between tokens. -/
  | outside
  /-- In a line comment. -/
  | line
  /-- In a block comment whose text is `body`. -/
  | block (body : List Char)

/-- Reads on from the given place in a gap. -/
def blankFrom : Gap → List Char → Outcome Unit
  | .outside, '/' :: '/' :: s => blankFrom .line s
  | .outside, '/' :: '*' :: s => blankFrom (.block s) s
  | .outside, c :: s =>
    if c = '#' then blankFrom .line s
    else if isSpace c then blankFrom .outside s
    else .read () (c :: s)
  | .outside, [] => .read () []
  | .line, c :: s => if c = '\n' || c = '\r' then blankFrom .outside s else blankFrom .line s
  | .line, [] => .read () []
  | .block _, '*' :: '/' :: s => blankFrom .outside s
  | .block body, _ :: s => blankFrom (.block body) s
  | .block body, [] => .fault .endOfComment body

/-- White space and comments, also none. -/
def blank (s : List Char) : Outcome Unit :=
  blankFrom .outside s

theorem blankFrom_within (g : Gap) (s t : List Char) (hs : s <:+ t)
    (hg : ∀ body, g = .block body → body <:+ t) : (blankFrom g s).Within t := by
  fun_induction blankFrom g s generalizing t with
  | case1 s ih => exact ih t (((List.suffix_cons _ _).trans (List.suffix_cons _ _)).trans hs) nofun
  | case2 s ih =>
    have h := ((List.suffix_cons _ _).trans (List.suffix_cons _ _)).trans hs
    exact ih t h fun body e => by cases e; exact h
  | case3 s _ _ ih => exact ih t ((List.suffix_cons _ _).trans hs) nofun
  | case4 c s _ _ _ _ ih => exact ih t ((List.suffix_cons _ _).trans hs) nofun
  | case5 => exact hs
  | case6 => exact hs
  | case7 c s _ ih => exact ih t ((List.suffix_cons _ _).trans hs) nofun
  | case8 c s _ ih => exact ih t ((List.suffix_cons _ _).trans hs) nofun
  | case9 => exact hs
  | case10 _ s ih =>
    exact ih t (((List.suffix_cons _ _).trans (List.suffix_cons _ _)).trans hs) nofun
  | case11 body c s _ ih => exact ih t ((List.suffix_cons _ _).trans hs) hg
  | case12 body => exact hg body rfl

theorem blank_within (s : List Char) : (blank s).Within s :=
  blankFrom_within .outside s s (List.suffix_refl s) nofun

end DecayForest.Grammar
