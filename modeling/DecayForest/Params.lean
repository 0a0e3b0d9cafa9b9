import DecayForest.Number.Reading
import DecayForest.Number.Text
import DecayForest.Text.Blank
/-!
# Parameters

Particles, decays and groups carry parameter lists. A list holds each name once, in ascending
order of names, and carries the proof of it. The entries of a record ascend as well, as each is made
from a parameter list, but a constructor of `Value` cannot ask that of them.
-/

namespace DecayForest

/-- The value of a parameter. Numerals in a document stay texts, see `Value.number?`. -/
inductive Value where
  | flag (on : Bool)
  | number (x : Float)
  | text (s : String)
  | record (entries : List (String × Value))
deriving Inhabited

/-- The names of entries ascend, so each stands once. -/
def Ascending (entries : List (String × Value)) : Prop :=
  entries.Pairwise fun a b => a.1 < b.1

/-- Entries with the value of a name set, in its place in the order. -/
def putEntry (name : String) (v : Value) : List (String × Value) → List (String × Value)
  | [] => [(name, v)]
  | (k, w) :: es =>
    if name < k then (name, v) :: (k, w) :: es
    else if name = k then (name, v) :: es
    else (k, w) :: putEntry name v es

theorem mem_putEntry {k : String} {v : Value} {es : List (String × Value)} {e : String × Value}
    (h : e ∈ putEntry k v es) : e = (k, v) ∨ e ∈ es := by
  fun_induction putEntry k v es with
  | case1 => exact .inl (List.mem_singleton.mp h)
  | case2 k' w es _ => exact List.mem_cons.mp h
  | case3 w es _ =>
    rcases List.mem_cons.mp h with h | h
    · exact .inl h
    · exact .inr (List.mem_cons_of_mem _ h)
  | case4 k' w es _ _ ih =>
    rcases List.mem_cons.mp h with rfl | h
    · exact .inr List.mem_cons_self
    · exact (ih h).imp_right (List.mem_cons_of_mem _)

theorem lookup_putEntry_self (k : String) (v : Value) (es : List (String × Value)) :
    (putEntry k v es).lookup k = some v := by
  fun_induction putEntry k v es <;> grind

theorem lookup_putEntry_of_ne {k other : String} (h : other ≠ k) (v : Value)
    (es : List (String × Value)) : (putEntry k v es).lookup other = es.lookup other := by
  fun_induction putEntry k v es <;> grind

theorem Ascending.putEntry {es : List (String × Value)} (h : Ascending es) (k : String) (v : Value) :
    Ascending (putEntry k v es) := by
  fun_induction DecayForest.putEntry k v es with
  | case1 => exact List.pairwise_singleton _ _
  | case2 k' w es hlt =>
    refine List.pairwise_cons.mpr ⟨fun e he => ?_, h⟩
    rcases List.mem_cons.mp he with rfl | he
    · exact hlt
    · exact String.lt_trans hlt ((List.pairwise_cons.mp h).1 e he)
  | case3 w es _ => exact List.pairwise_cons.mpr (List.pairwise_cons.mp h)
  | case4 k' w es hlt hne ih =>
    obtain ⟨hk', hes⟩ := List.pairwise_cons.mp h
    refine List.pairwise_cons.mpr ⟨fun e he => ?_, ih hes⟩
    rcases mem_putEntry he with rfl | he
    · exact String.not_le.mp fun hle => hne (String.le_antisymm hle (String.not_lt.mp hlt))
    · exact hk' e he

/-- Parameters by name, in ascending order of names. -/
@[ext] structure ParamList where
  entries : List (String × Value)
  ascending : Ascending entries

namespace ParamList

instance : EmptyCollection ParamList := ⟨⟨[], .nil⟩⟩

instance : Inhabited ParamList := ⟨∅⟩

/-- The parameter that gives a particle its type. -/
def typeName : String := "type"

/-- The parameter that gives a decay its branching fraction. -/
def fractionName : String := "fraction"

/-- The parameter that tells decay modes between the same species apart. -/
def momentumName : String := "angular_momentum"

/-- The parameter that gives a particle its mass. -/
def massName : String := "mass"

/-- The value under a name. -/
def value? (name : String) (ps : ParamList) : Option Value :=
  ps.entries.lookup name

/-- Sets the value of a name. -/
def put (name : String) (v : Value) (ps : ParamList) : ParamList where
  entries := putEntry name v ps.entries
  ascending := ps.ascending.putEntry name v

/-- The list with entries in any order put into it, one after the other. -/
def putAll (ps : ParamList) (entries : List (String × Value)) : ParamList :=
  entries.foldl (fun ps entry => ps.put entry.1 entry.2) ps

/-- The list with the entries of another on top: where both have a name, the upper one wins. -/
def overlay (base top : ParamList) : ParamList :=
  base.putAll top.entries

/-- The list of some entries in any order. Of several with one name the last one counts. -/
def ofEntries (entries : List (String × Value)) : ParamList :=
  putAll ∅ entries

/-- The list less one name. -/
def without (name : String) (ps : ParamList) : ParamList where
  entries := ps.entries.filter fun entry => entry.1 != name
  ascending := ps.ascending.filter _

theorem value?_put_self (name : String) (v : Value) (ps : ParamList) :
    value? name (put name v ps) = some v :=
  lookup_putEntry_self name v ps.entries

theorem value?_put_of_ne {name other : String} (h : other ≠ name) (v : Value) (ps : ParamList) :
    value? other (put name v ps) = value? other ps :=
  lookup_putEntry_of_ne h v ps.entries

end ParamList

namespace Value

/-- The value of a parameter that is listed by its name alone. -/
def present : Value := .flag true

/-- The text of a text value. -/
def text? : Value → Option String
  | .text s => some s
  | _ => none

/-- The entries of a record as a parameter list. -/
def record? : Value → Option ParamList
  | .record entries => some (.ofEntries entries)
  | _ => none

/-- The value as a number: texts are read, with blanks around them allowed. -/
def number? : Value → Option Float
  | .number x => some x
  | .text s => Number.read? (Text.trim s.toList)
  | _ => none

mutual

/-- The text shown for a value. -/
def display : Value → String
  | .flag on => if on then "true" else "false"
  | .number x => Number.plain x
  | .text s => s
  | .record entries => "[" ++ ", ".intercalate (displayEntries entries) ++ "]"

/-- The texts shown for the entries of a record. -/
def displayEntries : List (String × Value) → List String
  | [] => []
  | (name, v) :: entries => (name ++ "=" ++ display v) :: displayEntries entries

end

end Value

end DecayForest
