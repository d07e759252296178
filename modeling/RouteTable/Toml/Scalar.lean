import RouteTable.Toml.Reader
import RouteTable.Toml.Value

namespace RouteTable.Toml.Scalar

open Reader

def isBlank (c : Char) : Bool := c == ' ' || c == '\t'

def isPlain (c : Char) : Bool := c == '\t' || (32 ≤ c.toNat && c.toNat != 127)

def blanks : Reader Unit := do
  let _ ← spanWhere isBlank

def lineBreak : Reader Unit := word ['\n'] <|> word ['\r', '\n']

def comment : Reader Unit := do
  exactly '#'
  let _ ← spanWhere isPlain

def hexValue (c : Char) : Nat :=
  if c.isDigit then c.toNat - 48 else if c.isLower then c.toNat - 87 else c.toNat - 55

def isHex (c : Char) : Bool :=
  c.isDigit || ('a' ≤ c && c ≤ 'f') || ('A' ≤ c && c ≤ 'F')

def valueOf (base : Nat) (digits : Text) : Nat :=
  digits.foldl (fun n c => n * base + hexValue c) 0

def codePoint (digits : Nat) : Reader Char := do
  let n := valueOf 16 (← count digits isHex)
  if n.isValidChar then pure (Char.ofNat n) else failure

def escape : Reader Char := do
  exactly '\\'
  match ← char with
  | 'b' => pure (Char.ofNat 8)
  | 't' => pure '\t'
  | 'n' => pure '\n'
  | 'f' => pure (Char.ofNat 12)
  | 'r' => pure '\r'
  | '"' => pure '"'
  | '\\' => pure '\\'
  | 'u' => codePoint 4
  | 'U' => codePoint 8
  | _ => failure

def single (r : Reader Char) : Reader Text := do
  pure [← r]

def isUnescaped (c : Char) : Bool := isPlain c && c != '"' && c != '\\'

def basicString : Reader Text := do
  exactly '"'
  let pieces ← many (stretch isUnescaped <|> single escape)
  exactly '"'
  pure pieces.flatten

def literalString : Reader Text := do
  exactly '\''
  let s ← spanWhere fun c => isPlain c && c != '\''
  exactly '\''
  pure s

/-- A backslash at the end of a line takes all blanks and line breaks behind it away. -/
def joinLines : Reader Text := do
  exactly '\\'
  blanks
  lineBreak
  let _ ← many (lineBreak <|> exactly ' ' <|> exactly '\t')
  pure []

def fewQuotes (quote : Char) : Reader Text := do
  let quotes ← spanWhere (· == quote)
  if 1 ≤ quotes.length && quotes.length ≤ 2 then pure quotes else failure

/-- The closing quotes, with up to two of the string in front of them. -/
def closingQuotes (quote : Char) : Reader Text := do
  let quotes ← spanWhere (· == quote)
  if 3 ≤ quotes.length && quotes.length ≤ 5 then pure (quotes.drop 3) else failure

def lineBreakText : Reader Text := do
  lineBreak
  pure ['\n']

/-- A string over several lines; a line break right behind the opening quotes does not count. -/
def multiline (quote : Char) (piece : Reader Text) : Reader Text := do
  word [quote, quote, quote]
  let _ ← maybe lineBreak
  let body ← many (piece <|> lineBreakText <|> fewQuotes quote)
  let last ← closingQuotes quote
  pure (body.flatten ++ last)

def multilineBasicString : Reader Text :=
  multiline '"'
    (stretch isUnescaped <|> joinLines <|> single escape)

def multilineLiteralString : Reader Text :=
  multiline '\'' (stretch fun c => isPlain c && c != '\'')

def string : Reader Text :=
  multilineBasicString <|> basicString <|> multilineLiteralString <|> literalString

def digits (p : Char → Bool) : Reader Text := do
  let runs ← separated (stretch p) (exactly '_')
  pure runs.flatten

def sign : Reader Bool := do
  match ← maybe (charWhere fun c => c == '+' || c == '-') with
  | some '-' => pure true
  | _ => pure false

def whole : Reader (Bool × Text) := do
  let negative ← sign
  let ds ← digits Char.isDigit
  if 1 < ds.length && Text.startsWith '0' ds then failure else pure (negative, ds)

def signed (negative : Bool) (n : Nat) : Int := if negative then -n else n

/-- Integers have 64 bits, one of them for the sign. -/
def integerBound : Int := 0x8000000000000000

def bounded (n : Int) : Reader Int :=
  if -integerBound ≤ n && n < integerBound then pure n else failure

def radix (mark : Char) (base : Nat) (p : Char → Bool) : Reader Int := do
  word ['0', mark]
  bounded (valueOf base (← digits p))

def decimalInteger : Reader Int := do
  let (negative, ds) ← whole
  bounded (signed negative (valueOf 10 ds))

def integer : Reader Int :=
  radix 'x' 16 isHex <|> radix 'o' 8 (fun c => '0' ≤ c && c ≤ '7') <|>
    radix 'b' 2 (fun c => c == '0' || c == '1') <|> decimalInteger

def exponent : Reader Int := do
  let _ ← charWhere fun c => c == 'e' || c == 'E'
  let negative ← sign
  pure (signed negative (valueOf 10 (← digits Char.isDigit)))

def fraction : Reader Text := do
  exactly '.'
  digits Char.isDigit

/-- A number beyond the greatest finite one is none, a number below the least one is infinite. -/
def finite : Reader Real := do
  let (negative, ds) ← whole
  let f ← maybe fraction
  let e ← maybe exponent
  if f.isNone && e.isNone then failure
  let f := f.getD []
  match Binary64.nearest? ⟨negative, valueOf 10 (ds ++ f), e.getD 0 - f.length⟩ with
  | some x => pure (.finite x)
  | none => if negative then pure (.infinite true) else failure

def infinity : Reader Real := do
  let negative ← sign
  word "inf".toList
  pure (.infinite negative)

def notANumber : Reader Real := do
  let _ ← sign
  word "nan".toList
  pure .notANumber

def float : Reader Real := finite <|> infinity <|> notANumber

def boolean : Reader Bool :=
  (do word "true".toList; pure true) <|> (do word "false".toList; pure false)

def decimal (width low high : Nat) : Reader Nat := do
  let n := valueOf 10 (← count width Char.isDigit)
  if low ≤ n && n ≤ high then pure n else failure

def isLeapYear (y : Nat) : Bool := y % 4 == 0 && (y % 100 != 0 || y % 400 == 0)

def daysIn (year month : Nat) : Nat :=
  if month = 2 then (if isLeapYear year then 29 else 28)
  else if month = 4 || month = 6 || month = 9 || month = 11 then 30
  else 31

def date : Reader Date := do
  let year ← decimal 4 0 9999
  exactly '-'
  let month ← decimal 2 1 12
  exactly '-'
  let day ← decimal 2 1 (daysIn year month)
  pure ⟨year, month, day⟩

/-- Nine digits count; fewer are filled up with zeros, more are cut off. -/
def nanoseconds : Reader Nat := do
  exactly '.'
  let first ← charWhere Char.isDigit
  let others ← spanWhere Char.isDigit
  let ds := (first :: others).take 9
  pure (valueOf 10 (ds ++ List.replicate (9 - ds.length) '0'))

def time : Reader Time := do
  let hour ← decimal 2 0 23
  exactly ':'
  let minute ← decimal 2 0 59
  exactly ':'
  let second ← decimal 2 0 60
  let nanosecond ← maybe nanoseconds
  pure ⟨hour, minute, second, nanosecond.getD 0⟩

def zone : Reader Zone := do
  match ← char with
  | 'Z' => pure .utc
  | 'z' => pure .utc
  | c =>
    if c == '+' || c == '-' then
      let hour ← decimal 2 0 23
      exactly ':'
      let minute ← decimal 2 0 59
      pure (.offset (signed (c == '-') (hour * 60 + minute)))
    else failure

def timeAfterDate : Reader (Time × Option Zone) := do
  let _ ← charWhere fun c => c == 'T' || c == 't' || c == ' '
  let t ← time
  let z ← maybe zone
  pure (t, z)

def datetime : Reader Datetime :=
  (do
    let d ← date
    match ← maybe timeAfterDate with
    | some (t, z) => pure ⟨some d, some t, z⟩
    | none => pure ⟨some d, none, none⟩) <|>
  (do
    let t ← time
    pure ⟨none, some t, none⟩)

end RouteTable.Toml.Scalar
