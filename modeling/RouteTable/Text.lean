namespace RouteTable

abbrev Text := List Char

namespace Text

/-- The stretches between separators, empty ones included: one more than there are separators. -/
def pieces (isSep : Char → Bool) : Text → List Text
  | [] => [[]]
  | c :: s => if isSep c then [] :: pieces isSep s else (pieces isSep s).modifyHead (c :: ·)

/-- The stretches between separators that hold at least one character. -/
def parts (isSep : Char → Bool) (s : Text) : List Text :=
  (pieces isSep s).filter fun p => !p.isEmpty

def joinWith (sep : Char) : List Text → Text
  | [] => []
  | [p] => p
  | p :: q :: ps => p ++ sep :: joinWith sep (q :: ps)

def afterFront? : (front s : Text) → Option Text
  | [], s => some s
  | _ :: _, [] => none
  | f :: front, c :: s => if f = c then afterFront? front s else none

def beforeBack? (back s : Text) : Option Text :=
  (afterFront? back.reverse s.reverse).map List.reverse

def startsWith (c : Char) (s : Text) : Bool := s.head? == some c

def endsWith (c : Char) (s : Text) : Bool := s.getLast? == some c

def dropLeading (c : Char) (s : Text) : Text := s.dropWhile (· == c)

def dropTrailing (c : Char) (s : Text) : Text := (s.reverse.dropWhile (· == c)).reverse

/-- The characters with the Unicode property `White_Space`. -/
def isBlank (c : Char) : Bool :=
  let n := c.toNat
  (9 ≤ n && n ≤ 13) || n == 0x20 || n == 0x85 || n == 0xA0 || n == 0x1680
    || (0x2000 ≤ n && n ≤ 0x200A) || n == 0x2028 || n == 0x2029 || n == 0x202F
    || n == 0x205F || n == 0x3000

def words (s : Text) : List Text := parts isBlank s

def byteCount (s : Text) : Nat := s.foldl (fun n c => n + c.utf8Size) 0

def ofNat (n : Nat) : Text := Nat.toDigits 10 n

def ofInt : Int → Text
  | .ofNat n => ofNat n
  | .negSucc n => '-' :: ofNat (n + 1)

def padded (width n : Nat) : Text :=
  List.replicate (width - (ofNat n).length) '0' ++ ofNat n

theorem pieces_ne_nil (isSep : Char → Bool) (s : Text) : pieces isSep s ≠ [] := by
  induction s with
  | nil => simp [pieces]
  | cons c s ih =>
      by_cases h : isSep c
      · simp [pieces, h]
      · cases hp : pieces isSep s with
        | nil => exact absurd hp ih
        | cons p ps => simp [pieces, h, hp]

theorem pieces_of_clean {isSep : Char → Bool} {s : Text} (h : ∀ c ∈ s, isSep c = false) :
    pieces isSep s = [s] := by
  induction s with
  | nil => rfl
  | cons c s ih =>
      have hc : isSep c = false := h c (by simp)
      simp [pieces, hc, ih fun d hd => h d (by simp [hd])]

theorem pieces_append_sep {isSep : Char → Bool} {p : Text} (h : ∀ c ∈ p, isSep c = false)
    {sep : Char} (hs : isSep sep = true) (s : Text) :
    pieces isSep (p ++ sep :: s) = p :: pieces isSep s := by
  induction p with
  | nil => simp [pieces, hs]
  | cons c p ih =>
      have hc : isSep c = false := h c (by simp)
      simp [pieces, hc, ih fun d hd => h d (by simp [hd])]

theorem joinWith_cons_cons (sep : Char) (p : Text) {ps : List Text} (h : ps ≠ []) :
    joinWith sep (p :: ps) = p ++ sep :: joinWith sep ps := by
  cases ps with
  | nil => exact absurd rfl h
  | cons q ps => rfl

theorem joinWith_pieces (sep : Char) (s : Text) : joinWith sep (pieces (· == sep) s) = s := by
  induction s with
  | nil => rfl
  | cons c s ih =>
      have hne := pieces_ne_nil (· == sep) s
      by_cases h : c = sep
      · simp [pieces, h, joinWith_cons_cons sep [] hne, ih]
      · cases hp : pieces (· == sep) s with
        | nil => exact absurd hp hne
        | cons p ps =>
            rw [hp] at ih
            cases ps with
            | nil => simpa [pieces, h, hp, joinWith] using ih
            | cons q ps => simpa [pieces, h, hp, joinWith] using ih

theorem pieces_joinWith (sep : Char) {ps : List Text} (hne : ps ≠ []) (h : ∀ p ∈ ps, sep ∉ p) :
    pieces (· == sep) (joinWith sep ps) = ps := by
  have clean : ∀ p ∈ ps, ∀ c ∈ p, (c == sep) = false := fun p hp c hc =>
    beq_eq_false_iff_ne.2 fun e => h p hp (e ▸ hc)
  induction ps with
  | nil => exact absurd rfl hne
  | cons p ps ih =>
      have hp := clean p (by simp)
      cases ps with
      | nil => simpa [joinWith] using pieces_of_clean hp
      | cons q ps =>
          rw [joinWith, pieces_append_sep hp (by simp)]
          simp [ih (by simp) (fun r hr => h r (by simp [hr])) (fun r hr => clean r (by simp [hr]))]

theorem afterFront?_append (front s : Text) : afterFront? front (front ++ s) = some s := by
  induction front with
  | nil => rfl
  | cons c front ih => simpa [afterFront?] using ih

theorem afterFront?_eq_some {front s rest : Text} :
    afterFront? front s = some rest ↔ s = front ++ rest := by
  constructor
  · intro h
    fun_induction afterFront? front s with
    | case1 s => simpa using h
    | case2 => simp at h
    | case3 c front s ih => simp [ih h]
    | case4 => simp at h
  · rintro rfl
    exact afterFront?_append front rest

theorem beforeBack?_eq_some {back s rest : Text} :
    beforeBack? back s = some rest ↔ s = rest ++ back := by
  constructor
  · intro h
    obtain ⟨t, ht, rfl⟩ := Option.map_eq_some_iff.1 h
    have := congrArg List.reverse (afterFront?_eq_some.1 ht)
    simpa using this
  · rintro rfl
    simp [beforeBack?, afterFront?_append]

end Text

end RouteTable
