import DecayForest.Text.Hidden
/-!
# Quoted texts

A text that a message quotes stands in double quotes, with escapes for the quote, the backslash,
line breaks and all characters that would not show.
-/

namespace DecayForest.Text

/-- A character by its code. -/
def coded (c : Char) : List Char :=
  '\\' :: 'u' :: '\x7b' :: Nat.toDigits 16 c.toNat ++ ['\x7d']

/-- A character between quotes. -/
def quotedChar (c : Char) : List Char :=
  if c = '\x00' then ['\\', '0']
  else if c = '\t' then ['\\', 't']
  else if c = '\n' then ['\\', 'n']
  else if c = '\r' then ['\\', 'r']
  else if c = '\x22' || c = '\\' then ['\\', c]
  else if isHidden c then coded c
  else [c]

/-- A text in quotes. -/
def quoted (s : String) : String :=
  String.ofList ('\x22' :: s.toList.flatMap quotedChar ++ ['\x22'])

end DecayForest.Text
