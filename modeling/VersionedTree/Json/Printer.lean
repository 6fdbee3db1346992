import VersionedTree.Text.Hex

/-!
# JSON printer — records as text

A record is printed as an object whose member values are printed already: on one line (**`compact`**), or with a member
per line (**`pretty`**).
-/

namespace VersionedTree.Json

/-- A character inside quotes. Quotes, backslashes and control characters are escaped, and nothing else is. -/
def escape (c : Char) : List Char :=
  if c = '"' then ['\\', '"']
  else if c = '\\' then ['\\', '\\']
  else if c = '\n' then ['\\', 'n']
  else if c = '\r' then ['\\', 'r']
  else if c = '\t' then ['\\', 't']
  else if c = '\x08' then ['\\', 'b']
  else if c = '\x0c' then ['\\', 'f']
  else if c < ' ' then ['\\', 'u', '0', '0'] ++ (Hex.text [c.toNat.toUInt8]).toList
  else [c]

/-- A text in quotes. -/
def quoted (s : String) : String :=
  String.ofList ('"' :: (s.toList.flatMap escape ++ ['"']))

/-- A record on one line, without spaces. -/
def compact (members : List (String × String)) : String :=
  "\x7b" ++ ",".intercalate (members.map fun (name, value) => quoted name ++ ":" ++ value) ++ "\x7d"

/-- A record with a line for each member, indented by two spaces. -/
def pretty (members : List (String × String)) : String :=
  "\x7b\n" ++ ",\n".intercalate (members.map fun (name, value) => "  " ++ quoted name ++ ": " ++ value) ++ "\n\x7d"

end VersionedTree.Json
