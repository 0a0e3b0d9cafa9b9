import DecayForest.Grammar.List
import DecayForest.Statement
/-!
# The rule for statements

A keyword with a list behind it is a default. Any other statement opens with a name, and what
follows tells its kind: `=` a parameter of the group, `->` a decay, all else a particle.
-/

namespace DecayForest.Grammar

/-- What follows a word, in any letter case. -/
def afterWord? : List Char → List Char → Option (List Char)
  | [], s => some s
  | _ :: _, [] => none
  | w :: word, c :: s => if c.toLower = w then afterWord? word s else none

/-- Whether a keyword cannot end before a character. -/
def continuesWord (c : Char) : Bool :=
  c.isAlphanum || c = '_' || c = '$'

/-- A keyword, and what follows it. -/
def keyword? (s : List Char) : Option (Scope × List Char) :=
  [("particle", Scope.particle), ("decay", Scope.decay)].findSome? fun (word, scope) =>
    match afterWord? word.toList s with
    | some (c :: rest) => if continuesWord c then none else some (scope, c :: rest)
    | some [] => some (scope, [])
    | none => none

/-- The targets and the parameters of a decay, behind its arrow. -/
def edgeFrom (source : String) (s : List Char) : Outcome Statement :=
  (blank s).bind fun _ s =>
  (required '\x7b' s).bind fun _ s =>
  (blank s).bind fun _ s =>
  (many (fun s => (identifier s).bind fun name s => (blank s).map fun _ => name) s).bind
    fun targets s =>
  (required '\x7d' s).bind fun _ s =>
  (someParams s).map fun params => .edge source targets params

/-- The value of a parameter of the group, behind its `=`. -/
def paramFrom (name : String) (s : List Char) : Outcome Statement :=
  (blank s).bind fun _ s => (value (paramList maxListDepth) s).map fun v => .param name v

/-- A statement whose first name has been read. -/
def namedFrom (name : String) (s : List Char) : Outcome Statement :=
  (blank s).bind fun _ ahead =>
    match ahead with
    | '=' :: s => paramFrom name s
    | '-' :: '>' :: s => edgeFrom name s
    | _ => (someParams s).map fun params => .node name params

/-- A statement that opens with a name. -/
def named (s : List Char) : Outcome Statement :=
  match identifier s with
  | .read name rest => namedFrom name rest
  | .miss .closingQuote place => .miss .closingQuote place
  | .miss _ _ => .miss .statement s
  | .fault e place => .fault e place

/-- A statement. -/
def statement (s : List Char) : Outcome Statement :=
  match keyword? s with
  | none => named s
  | some (scope, rest) =>
    match (blank rest).bind fun _ s => paramList maxListDepth s with
    | .read params rest => .read (.defaults scope params) rest
    | .fault e place => .fault e place
    | .miss _ _ => named s

theorem edgeFrom_within (source : String) (s : List Char) : (edgeFrom source s).Within s :=
  (blank_within s).bind fun _ s =>
  (required_within '\x7b' s).bind fun _ s =>
  (blank_within s).bind fun _ s =>
  (many_within (fun s => (identifier_within s).bind fun _ s => (blank_within s).map _) s).bind
    fun _ s =>
  (required_within '\x7d' s).bind fun _ s => (someParams_within s).map _

theorem paramFrom_within (name : String) (s : List Char) : (paramFrom name s).Within s :=
  (blank_within s).bind fun _ s => (value_within (paramList_within maxListDepth) s).map _

end DecayForest.Grammar
