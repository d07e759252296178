import RouteTable.Text

namespace RouteTable

namespace Glob

inductive CharRange where
  | single (c : Char)
  | between (low high : Char)
deriving DecidableEq, Repr

inductive Token where
  | char (c : Char)
  | anyChar
  | anyStretch
  | within (ranges : List CharRange)
  | except (ranges : List CharRange)
deriving DecidableEq, Repr

inductive Pattern where
  | descend
  | name (tokens : List Token)
deriving DecidableEq, Repr

def CharRange.holds (c : Char) : CharRange → Bool
  | single d => c == d
  | between low high => low.toNat ≤ c.toNat && c.toNat ≤ high.toNat

def Token.accepts (c : Char) : Token → Bool
  | char d => c == d
  | anyChar => true
  | anyStretch => false
  | within ranges => ranges.any (CharRange.holds c)
  | except ranges => !ranges.any (CharRange.holds c)

def ranges : Text → List CharRange
  | a :: '-' :: b :: rest => .between a b :: ranges rest
  | a :: rest => .single a :: ranges rest
  | [] => []

def closing? : Text → Option (Text × Text)
  | [] => none
  | c :: s => if c = ']' then some ([], s) else (closing? s).map fun r => (c :: r.1, r.2)

theorem length_of_closing? {s before after : Text} (h : closing? s = some (before, after)) :
    after.length < s.length := by
  induction s generalizing before after with
  | nil => simp [closing?] at h
  | cons c s ih =>
      rw [closing?] at h
      split at h
      · simp only [Option.some.injEq, Prod.mk.injEq] at h
        simp [← h.2]
      · obtain ⟨r, hr, he⟩ := Option.map_eq_some_iff.1 h
        simp only [Prod.mk.injEq] at he
        have := ih hr
        rw [he.2] at this
        simp
        omega

/-- The tokens of one segment. A class holds at least one character, which may be the closing bracket, and two
stars in a row are refused. -/
def tokens? : Text → Option (List Token)
  | [] => some []
  | '?' :: s => (tokens? s).map (.anyChar :: ·)
  | '*' :: s => if Text.startsWith '*' s then none else (tokens? s).map (.anyStretch :: ·)
  | '[' :: '!' :: c :: s =>
    match h : closing? s with
    | none => none
    | some (inside, s') =>
      have := length_of_closing? h
      (tokens? s').map (.except (ranges (c :: inside)) :: ·)
  | '[' :: c :: s =>
    if c = '!' then none
    else match h : closing? s with
      | none => none
      | some (inside, s') =>
        have := length_of_closing? h
        (tokens? s').map (.within (ranges (c :: inside)) :: ·)
  | ['['] => none
  | c :: s => (tokens? s).map (.char c :: ·)
termination_by s => s.length
decreasing_by all_goals (simp_all; try omega)

def pattern? (segment : Text) : Option Pattern :=
  if segment = ['*', '*'] then some .descend else (tokens? segment).map .name

def anyTail (p : Text → Bool) : Text → Bool
  | [] => p []
  | c :: s => p (c :: s) || anyTail p s

def fits : List Token → Text → Bool
  | [], s => s.isEmpty
  | .anyStretch :: ts, s => anyTail (fits ts) s
  | _ :: _, [] => false
  | t :: ts, c :: s => t.accepts c && fits ts s

def onEnds (p : Text → Bool) : Text → List Bool
  | [] => [p []]
  | c :: s => p (c :: s) :: onEnds p s

def anyFrom : List Bool → List Bool
  | [] => []
  | b :: bs => (b || bs.any id) :: anyFrom bs

/-- Which ends of a text fit. No token is tried twice at the same place. -/
def fittingEnds : List Token → Text → List Bool
  | [], s => onEnds List.isEmpty s
  | .anyStretch :: ts, s => anyFrom (fittingEnds ts s)
  | t :: ts, s => List.zipWith (fun c fit => t.accepts c && fit) s (fittingEnds ts s).tail ++ [false]

/-- `fits`, in time that grows with the product of both lengths. -/
def isMatch (tokens : List Token) (s : Text) : Bool := (fittingEnds tokens s).headD false

theorem any_onEnds (p : Text → Bool) (s : Text) : (onEnds p s).any id = anyTail p s := by
  induction s with
  | nil => simp [onEnds, anyTail]
  | cons c s ih => simp [onEnds, anyTail, ih]

theorem anyFrom_onEnds (p : Text → Bool) (s : Text) :
    anyFrom (onEnds p s) = onEnds (anyTail p) s := by
  induction s with
  | nil => simp [onEnds, anyFrom, anyTail]
  | cons c s ih => simp [onEnds, anyFrom, anyTail, ih, any_onEnds]

theorem zipWith_onEnds {p q : Text → Bool} {accepts : Char → Bool} (hnil : q [] = false)
    (hcons : ∀ c s, q (c :: s) = (accepts c && p s)) (s : Text) :
    List.zipWith (fun c fit => accepts c && fit) s (onEnds p s).tail ++ [false] = onEnds q s := by
  induction s with
  | nil => simp [onEnds, hnil]
  | cons c s ih =>
      rw [onEnds, onEnds, List.tail_cons, hcons, ← ih]
      cases s <;> simp [onEnds]

theorem fittingEnds_eq (tokens : List Token) (s : Text) :
    fittingEnds tokens s = onEnds (fits tokens) s := by
  induction tokens with
  | nil =>
      have : fits [] = List.isEmpty := by
        funext s
        rw [fits]
      rw [fittingEnds, this]
  | cons t ts ih =>
      cases t with
      | anyStretch =>
          have : fits (.anyStretch :: ts) = anyTail (fits ts) := by
            funext s
            rw [fits]
          rw [fittingEnds, ih, anyFrom_onEnds, this]
      | char _ | anyChar | within _ | except _ =>
          rw [fittingEnds, ih]
          · exact zipWith_onEnds (by simp [fits]) (fun c s => by rw [fits]; simp) s
          · simp

theorem isMatch_eq (tokens : List Token) (s : Text) : isMatch tokens s = fits tokens s := by
  rw [isMatch, fittingEnds_eq]
  cases s <;> simp [onEnds]

def literal? : List Token → Option Text
  | [] => some []
  | .char c :: ts => (literal? ts).map (c :: ·)
  | _ :: _ => none

def escapeChar (c : Char) : Text :=
  if c = '?' || c = '*' || c = '[' || c = ']' then ['[', c, ']'] else [c]

def escape (s : Text) : Text := s.flatMap escapeChar

def escapedToken (c : Char) : Token :=
  if c = '?' || c = '*' || c = '[' || c = ']' then .within [.single c] else .char c

theorem tokens?_escape (s : Text) : tokens? (escape s) = some (s.map escapedToken) := by
  induction s with
  | nil => simp [escape, tokens?]
  | cons c s ih =>
      have he : escape (c :: s) = escapeChar c ++ escape s := by simp [escape]
      rw [he]
      by_cases h₁ : c = '?'
      · subst c; simp [escapeChar, escapedToken, tokens?, closing?, ranges, ih]
      by_cases h₂ : c = '*'
      · subst c; simp [escapeChar, escapedToken, tokens?, closing?, ranges, ih]
      by_cases h₃ : c = '['
      · subst c; simp [escapeChar, escapedToken, tokens?, closing?, ranges, ih]
      by_cases h₄ : c = ']'
      · subst c; simp [escapeChar, escapedToken, tokens?, closing?, ranges, ih]
      simp [escapeChar, escapedToken, tokens?, h₁, h₂, h₃, h₄, ih]

theorem accepts_escapedToken (c d : Char) : (escapedToken c).accepts d = (d == c) := by
  unfold escapedToken
  split <;> simp [Token.accepts, CharRange.holds]

theorem fits_map_escapedToken (s t : Text) : fits (s.map escapedToken) t = true ↔ t = s := by
  induction s generalizing t with
  | nil => simp [fits]
  | cons c s ih =>
      have fits_cons (d : Char) (t : Text) :
          fits (escapedToken c :: s.map escapedToken) (d :: t) =
            ((escapedToken c).accepts d && fits (s.map escapedToken) t) := by
        unfold escapedToken
        split <;> simp [fits]
      cases t with
      | nil =>
          unfold escapedToken
          simp only [List.map_cons]
          split <;> simp [fits]
      | cons d t => simp [fits_cons, accepts_escapedToken, ih]

end Glob

end RouteTable
