import FeatureAssembly.Digest
import FeatureAssembly.Text.Seen

/-!
# Quoted texts

The form in which a text is shown inside a message: in quotes, with the quote and
the backslash escaped, the usual letters for NUL, tab, line feed and carriage
return, and the hexadecimal code point of every character that would not be seen
on its own.
-/

namespace FeatureAssembly.Text

/-- The hexadecimal digits of a number, without leading zeros. -/
def hexText (n : Nat) : List Char :=
  Digest.hexDigits (n.log2 / 4 + 1) n

/-- A character as it is shown between quotes. -/
def shownChar (c : Char) : List Char :=
  if c = '"' then ['\\', '"']
  else if c = '\\' then ['\\', '\\']
  else if c = '\x00' then ['\\', '0']
  else if c = '\t' then ['\\', 't']
  else if c = '\n' then ['\\', 'n']
  else if c = '\r' then ['\\', 'r']
  else if !isSeen c then
    '\\' :: 'u' :: '\x7b' :: hexText c.toNat ++ ['\x7d']
  else [c]

/-- A text in quotes. -/
def inQuotes (s : String) : String :=
  String.ofList ('"' :: s.toList.flatMap shownChar ++ ['"'])

end FeatureAssembly.Text
