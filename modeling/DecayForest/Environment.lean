/-!
# Environments

An environment gives values to variables, and knows the directory of the account. Where a name
occurs twice, the first value counts.
-/

namespace DecayForest

/-- Variables, and what is known about the account. -/
structure Environment where
  /-- Variables with their values. -/
  values : List (String × String) := []
  /-- The directory that belongs to the account of the user. -/
  accountHome : Option String := none
deriving DecidableEq, Repr

namespace Environment

/-- What follows `start` in a text that starts with it. -/
def after? (start s : List Char) : Option (List Char) :=
  if start.isPrefixOf s then some (s.drop start.length) else none

/-- The value of a variable. Variables are lines of a name, an equals sign and a value, and any name
is sought at the start of the lines: if the value of `A` is `B=C`, that of `A=B` is `C`. The empty
name has no value. -/
def value? (env : Environment) (name : String) : Option String :=
  if name.isEmpty then none
  else env.values.findSome? fun (key, value) =>
    (after? (name.toList ++ ['=']) (key.toList ++ '=' :: value.toList)).map String.ofList

/-- The directory that belongs to the user: the value of a variable, or that of the account if the
value is missing or empty. -/
def home? (env : Environment) : Option String :=
  match env.value? "HOME" with
  | some "" | none => env.accountHome
  | some home => some home

end Environment

end DecayForest
