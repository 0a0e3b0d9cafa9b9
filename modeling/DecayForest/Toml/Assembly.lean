import DecayForest.Toml.Basic
/-!
# Building tables

Keys and headers name tables by paths. A table that a path goes through is made where there is none.
No key is given twice, no table is opened twice, and dotted keys add to tables only that dotted keys
have made.
-/

namespace DecayForest.Toml

/-- A table under construction. -/
structure Table where
  kind : TableKind
  entries : Entries := []

/-- Sets a value, in its old place where it has one. -/
def assign (key : String) (v : Toml) : Entries → Entries
  | [] => [(key, v)]
  | (k, w) :: es => if k = key then (key, v) :: es else (k, w) :: assign key v es

/-- Changes the table under a path. Paths of headers and of dotted keys may go through different
tables, and make tables of different kinds. -/
def descend (dotted : Bool) (change : Table → Option Table) : List String → Table → Option Table
  | [], t => change t
  | key :: path, t => do
    let child ← match t.entries.lookup key with
      | none =>
        let made ← descend dotted change path ⟨if dotted then .dotted else .implied, []⟩
        pure (Toml.table made.kind made.entries)
      | some (.table kind entries) =>
        if kind = .inline || (dotted && kind = .header) then none
        else
          let changed ← descend dotted change path ⟨kind, entries⟩
          pure (Toml.table changed.kind changed.entries)
      | some (.tables (last :: before)) =>
        let changed ← descend dotted change path ⟨.header, last⟩
        pure (Toml.tables (changed.entries :: before))
      | some _ => none
    return { t with entries := assign key child t.entries }

/-- A key with a value. -/
structure Pair where
  path : List String
  value : Toml

/-- Adds a pair to a table. -/
def addPair (t : Table) (p : Pair) : Option Table := do
  let key ← p.path.getLast?
  let path := p.path.dropLast
  descend true (fun t =>
    if (t.kind == .dotted) == path.isEmpty then none
    else if (t.entries.lookup key).isSome then none
    else some { t with entries := t.entries ++ [(key, p.value)] }) path t

/-- Adds several pairs. -/
def addPairs (pairs : List Pair) (t : Table) : Option Table :=
  pairs.foldlM addPair t

/-- The header of a table, or of one element of a sequence of tables. -/
structure Header where
  path : List String
  element : Bool

/-- Opens the table of a header. A table that inner headers have implied is opened once. -/
def openTable (h : Header) (t : Table) : Option Table := do
  let key ← h.path.getLast?
  descend false (fun t => do
    let opened ← match t.entries.lookup key, h.element with
      | none, false => pure (Toml.table .header [])
      | some (.table .implied entries), false => pure (Toml.table .header entries)
      | none, true => pure (Toml.tables [[]])
      | some (.tables elements), true => pure (Toml.tables ([] :: elements))
      | _, _ => none
    return { t with entries := assign key opened t.entries }) h.path.dropLast t

/-- Adds a header with the pairs below it to a document. -/
def addSection (t : Table) (part : Header × List Pair) : Option Table := do
  descend false (addPairs part.2) part.1.path (← openTable part.1 t)

end DecayForest.Toml
