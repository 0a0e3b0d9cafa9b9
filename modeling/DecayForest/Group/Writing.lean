import DecayForest.Forest.Tree
import DecayForest.Grammar.Identifier
import DecayForest.Group.Basic
/-!
# Groups as documents

A group is written as a document that reads back to the same group. Every particle is a statement
under its unique name with its type as the first parameter, after the statements of its products;
its decays follow it. The parameters of the group come last.
-/

namespace DecayForest

namespace Writing

/-- A name or text as an identifier. -/
def name (s : String) : Except ModelError String :=
  match Grammar.written? s with
  | some spelling => .ok spelling
  | none => .error (.unwritable s)

/-- Entries as a list. -/
def bracketed (entries : List String) : String :=
  "[" ++ ", ".intercalate entries ++ "]"

mutual

/-- A value behind `=`. -/
def value : Value → Except ModelError String
  | .record es => bracketed <$> entries es
  | .text s => name s
  | .flag on => name (Value.flag on).display
  | .number x => name (Value.number x).display

/-- The entries of a list. One whose value is a set flag is its name alone. -/
def entries : List (String × Value) → Except ModelError (List String)
  | [] => .ok []
  | (key, v) :: es => do
    let key ← name key
    let first ← match v with
      | .flag true => .ok key
      | v => (key ++ "=" ++ ·) <$> value v
    return first :: (← entries es)

end

/-- The parameters of a particle with its type in front. A parameter that has the name of the type
stands in its place. -/
def typed (type : String) (params : ParamList) : List (String × Value) :=
  (ParamList.typeName, (params.value? ParamList.typeName).getD (.text type)) ::
    (params.without ParamList.typeName).entries

/-- The identifier of a particle: its unique name. -/
def identifier (f : Forest) (id : ParticleId) : Except ModelError String := do
  name (← f.uniqueName id)

/-- The statement of a decay. -/
def branch (f : Forest) (parent : String) : Branch → Except ModelError String
  | .mk _ params products => do
    let names ← products.mapM fun t => identifier f t.id
    let list ← if params.entries.isEmpty then .ok "" else bracketed <$> entries params.entries
    return parent ++ " -> \x7b " ++ " ".intercalate names ++ " \x7d" ++ list ++ ";\n"

mutual

/-- The statements of a tree. -/
def tree (f : Forest) : Tree → Except ModelError String
  | .node id type params branches => do
    let below ← belowAll f branches
    let own ← identifier f id
    let list ← entries (typed type params)
    let decays ← branches.mapM (branch f own)
    return below ++ own ++ bracketed list ++ ";\n" ++ String.join decays

/-- The statements of the products of a decay. -/
def below (f : Forest) : Branch → Except ModelError String
  | .mk _ _ products => trees f products

/-- The statements of the products of several decays. -/
def belowAll (f : Forest) : List Branch → Except ModelError String
  | [] => .ok ""
  | b :: bs => do
    let first ← below f b
    return first ++ (← belowAll f bs)

/-- The statements of several trees. -/
def trees (f : Forest) : List Tree → Except ModelError String
  | [] => .ok ""
  | t :: ts => do
    let first ← tree f t
    return first ++ (← trees f ts)

end

/-- The statement of a parameter of a group. -/
def groupParam (entry : String × Value) : Except ModelError String := do
  let key ← name entry.1
  return key ++ " = " ++ (← value entry.2) ++ ";\n"

end Writing

namespace Forest

/-- The statements of a particle and all below it. -/
def written (f : Forest) (id : ParticleId) : Except ModelError String := do
  Writing.tree f (← f.tree id)

/-- The text of a decay by itself, which there is none of. -/
def writtenDecay (_ : DecayId) : Except ModelError String :=
  .error .loneDecay

end Forest

/-- The document of a group. -/
def Group.written (g : Group) : Except ModelError String := do
  let trees ← g.roots.mapM g.forest.written
  let params ← g.params.entries.mapM Writing.groupParam
  return String.join trees ++ String.join params

end DecayForest
