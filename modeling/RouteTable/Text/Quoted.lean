import RouteTable.Text
import RouteTable.Text.Invisible

namespace RouteTable.Text

def codePointEscape (c : Char) : Text :=
  "\\u".toList ++ '\x7b' :: Nat.toDigits 16 c.toNat ++ ['\x7d']

def quoteChar (c : Char) : Text :=
  if c = '\\' || c = '"' then ['\\', c]
  else if c = '\n' then ['\\', 'n']
  else if c = '\r' then ['\\', 'r']
  else if c = '\t' then ['\\', 't']
  else if c.toNat = 0 then ['\\', '0']
  else if isInvisible c then codePointEscape c
  else [c]

def quoted (s : Text) : Text := '"' :: s.flatMap quoteChar ++ ['"']

end RouteTable.Text
