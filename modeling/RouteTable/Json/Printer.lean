import RouteTable.Json

namespace RouteTable.Json

def hexDigit (n : Nat) : Char := if n < 10 then Char.ofNat (48 + n) else Char.ofNat (87 + n)

/-- A quote, a backslash and the control characters below the space are escaped, all else is raw. -/
def escape (c : Char) : Text :=
  if c = '"' then ['\\', '"']
  else if c = '\\' then ['\\', '\\']
  else if c = '\n' then ['\\', 'n']
  else if c = '\r' then ['\\', 'r']
  else if c = '\t' then ['\\', 't']
  else if c.toNat = 8 then ['\\', 'b']
  else if c.toNat = 12 then ['\\', 'f']
  else if c.toNat < 32 then
    "\\u00".toList ++ [hexDigit (c.toNat / 16), hexDigit (c.toNat % 16)]
  else [c]

def quoted (s : Text) : Text := '"' :: s.flatMap escape ++ ['"']

mutual

def compact : Json → Text
  | null => "null".toList
  | bool true => "true".toList
  | bool false => "false".toList
  | number n => n.text
  | string s => quoted s
  | array items => '[' :: compactItems items ++ [']']
  | object members => '{' :: compactMembers members ++ ['}']

def compactItems : List Json → Text
  | [] => []
  | [item] => compact item
  | item :: items => compact item ++ ',' :: compactItems items

def compactMembers : List (Text × Json) → Text
  | [] => []
  | [(key, value)] => quoted key ++ ':' :: compact value
  | (key, value) :: members => quoted key ++ ':' :: compact value ++ ',' :: compactMembers members

end

def newline (depth : Nat) : Text := '\n' :: List.replicate (2 * depth) ' '

mutual

def indented (depth : Nat) : Json → Text
  | array [] => ['[', ']']
  | object [] => ['{', '}']
  | array items => '[' :: indentedItems (depth + 1) items ++ newline depth ++ [']']
  | object members => '{' :: indentedMembers (depth + 1) members ++ newline depth ++ ['}']
  | null => "null".toList
  | bool true => "true".toList
  | bool false => "false".toList
  | number n => n.text
  | string s => quoted s

def indentedItems (depth : Nat) : List Json → Text
  | [] => []
  | [item] => newline depth ++ indented depth item
  | item :: items => newline depth ++ indented depth item ++ ',' :: indentedItems depth items

def indentedMembers (depth : Nat) : List (Text × Json) → Text
  | [] => []
  | [(key, value)] => newline depth ++ quoted key ++ ": ".toList ++ indented depth value
  | (key, value) :: members =>
    newline depth ++ quoted key ++ ": ".toList ++ indented depth value ++
      ',' :: indentedMembers depth members

end

end RouteTable.Json
