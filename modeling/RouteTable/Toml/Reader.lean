import RouteTable.Text

namespace RouteTable.Toml

abbrev Reader := StateT Text Option

namespace Reader

variable {α β : Type}

def char : Reader Char := fun s =>
  match s with
  | [] => none
  | c :: rest => some (c, rest)

def charWhere (p : Char → Bool) : Reader Char := fun s =>
  match s with
  | [] => none
  | c :: rest => if p c then some (c, rest) else none

def exactly (c : Char) : Reader Unit := do
  let _ ← charWhere (· == c)

def word (w : Text) : Reader Unit := fun s => (Text.afterFront? w s).map ((), ·)

def spanWhere (p : Char → Bool) : Reader Text := fun s => some (s.takeWhile p, s.dropWhile p)

def stretch (p : Char → Bool) : Reader Text := do
  let s ← spanWhere p
  if s.isEmpty then failure else pure s

def count (n : Nat) (p : Char → Bool) : Reader Text := fun s =>
  let taken := s.take n
  if taken.length = n && taken.all p then some (taken, s.drop n) else none

def atEnd : Reader Unit := fun s => if s.isEmpty then some ((), s) else none

def maybe (r : Reader α) : Reader (Option α) := fun s =>
  match r s with
  | some (a, rest) => some (some a, rest)
  | none => some (none, s)

def repeated (r : Reader α) (s : Text) : List α × Text :=
  match r s with
  | none => ([], s)
  | some (a, rest) =>
    if rest.length < s.length then
      let (as, rest) := repeated r rest
      (a :: as, rest)
    else ([], s)
termination_by s.length

def many (r : Reader α) : Reader (List α) := fun s => some (repeated r s)

def separated (r : Reader α) (sep : Reader β) : Reader (List α) := do
  let first ← r
  let others ← many (do let _ ← sep; r)
  pure (first :: others)

end Reader

end RouteTable.Toml
