import Mathlib.Data.List.DropRight
import RouteTable.Glob
import RouteTable.Proofs.Components

namespace RouteTable

namespace Glob

variable {p s t : Text}

/-- A text that is a pattern for itself. -/
def IsPlain (s : Text) : Prop := ∀ c ∈ s, c ≠ '?' ∧ c ≠ '*' ∧ c ≠ '['

instance (s : Text) : Decidable (IsPlain s) := List.decidableBAll _ s

def suffixTokens (extension : Text) : List Token := .anyStretch :: ('.' :: extension).map .char

theorem escape_append (s t : Text) : escape (s ++ t) = escape s ++ escape t := List.flatMap_append

theorem escapeChar_cases (c : Char) : escapeChar c = [c] ∨ c ≠ '/' ∧ escapeChar c = ['[', c, ']'] := by
  rw [escapeChar]
  split
  · next h =>
      refine .inr ⟨?_, rfl⟩
      rintro rfl
      exact absurd h (by decide)
  · exact .inl rfl

theorem slash_not_mem_escape (h : '/' ∉ p) : '/' ∉ escape p := by
  intro hslash
  obtain ⟨c, hc, hslash⟩ := List.mem_flatMap.1 hslash
  have hne : '/' ≠ c := fun he => h (he ▸ hc)
  rcases escapeChar_cases c with he | ⟨_, he⟩ <;> rw [he] at hslash <;> simp [hne] at hslash

theorem escape_joinWith (ps : List Text) : escape (Text.joinWith '/' ps) = Text.joinWith '/' (ps.map escape) := by
  induction ps with
  | nil => rfl
  | cons p ps ih =>
      cases ps with
      | nil => rfl
      | cons q ps =>
          calc escape (Text.joinWith '/' (p :: q :: ps))
              = escape p ++ '/' :: escape (Text.joinWith '/' (q :: ps)) := escape_append p _
            _ = Text.joinWith '/' ((p :: q :: ps).map escape) := by rw [ih]; rfl

theorem pieces_escape (s : Text) : Text.pieces Path.isSlash (escape s) = (Text.pieces Path.isSlash s).map escape := by
  have hclean : ∀ p ∈ (Text.pieces Path.isSlash s).map escape, '/' ∉ p := by
    intro p hp
    obtain ⟨q, hq, rfl⟩ := List.mem_map.1 hp
    exact slash_not_mem_escape (Path.slash_not_mem_piece hq)
  have hne : (Text.pieces Path.isSlash s).map escape ≠ [] := by simp [Text.pieces_ne_nil]
  calc Text.pieces Path.isSlash (escape s)
      = Text.pieces Path.isSlash (escape (Text.joinWith '/' (Text.pieces Path.isSlash s))) :=
        congrArg (fun s => Text.pieces Path.isSlash (escape s)) (Text.joinWith_pieces '/' s).symm
    _ = (Text.pieces Path.isSlash s).map escape := by
        rw [escape_joinWith]
        exact Text.pieces_joinWith '/' hne hclean

theorem dropTrailing_escape (s : Text) : Text.dropTrailing '/' (escape s) = escape (Text.dropTrailing '/' s) := by
  change (escape s).rdropWhile (· == '/') = escape (s.rdropWhile (· == '/'))
  induction s using List.reverseRecOn with
  | nil => rfl
  | append_singleton s c ih =>
      have hlast : escape (s ++ [c]) = escape s ++ escapeChar c := by simp [escape]
      rw [hlast]
      rcases escapeChar_cases c with he | ⟨hc, he⟩
      · rw [he, List.rdropWhile_concat, List.rdropWhile_concat, ih]
        split
        · rfl
        · rw [hlast, he]
      · have hbracket : escape s ++ ['[', c, ']'] = (escape s ++ ['[', c]) ++ [']'] := by simp
        rw [he, List.rdropWhile_concat_neg (· == '/') s c (by simpa using hc), hlast, he, hbracket]
        exact List.rdropWhile_concat_neg (· == '/') _ ']' (by decide)

theorem pattern?_escape (p : Text) : pattern? (escape p) = some (.name (p.map escapedToken)) := by
  have hstars : escape p ≠ ['*', '*'] := by
    intro h
    have htokens := tokens?_escape p
    rw [h] at htokens
    simp [tokens?, Text.startsWith] at htokens
  rw [pattern?, if_neg hstars, tokens?_escape]
  rfl

theorem tokens?_of_isPlain (h : IsPlain s) : tokens? s = some (s.map .char) := by
  induction s with
  | nil => rw [tokens?, List.map_nil]
  | cons c s ih =>
      obtain ⟨hone, hstar, hbracket⟩ := h c List.mem_cons_self
      rw [tokens?, ih fun d hd => h d (List.mem_cons_of_mem c hd)]
      · rfl
      all_goals simp_all

theorem pattern?_suffix (h : IsPlain s) : pattern? ('*' :: '.' :: s) = some (.name (suffixTokens s)) := by
  have hplain : IsPlain ('.' :: s) := List.forall_mem_cons.2 ⟨by decide, h⟩
  rw [pattern?, if_neg (by simp), tokens?, tokens?_of_isPlain hplain]
  rfl

theorem fits_map_char (s t : Text) : fits (s.map .char) t = true ↔ t = s := by
  induction s generalizing t with
  | nil => simp [fits]
  | cons c s ih =>
      cases t with
      | nil => simp [fits]
      | cons d t => simp [fits, Token.accepts, ih]

theorem anyTail_eq_true (holds : Text → Bool) (s : Text) :
    anyTail holds s = true ↔ ∃ front back, s = front ++ back ∧ holds back = true := by
  induction s with
  | nil => simp [anyTail]
  | cons c s ih =>
      rw [anyTail, Bool.or_eq_true, ih]
      constructor
      · rintro (h | ⟨front, back, rfl, h⟩)
        · exact ⟨[], c :: s, rfl, h⟩
        · exact ⟨c :: front, back, rfl, h⟩
      · rintro ⟨front, back, hs, h⟩
        cases front with
        | nil => exact .inl (by rwa [hs])
        | cons d front => exact .inr ⟨front, back, (List.cons.inj hs).2, h⟩

theorem isMatch_suffixTokens (extension s : Text) :
    isMatch (suffixTokens extension) s = true ↔ ∃ front, s = front ++ '.' :: extension := by
  rw [isMatch_eq, suffixTokens, fits, anyTail_eq_true]
  simp only [fits_map_char]
  refine exists_congr fun front => ⟨?_, fun hs => ⟨_, hs, rfl⟩⟩
  rintro ⟨back, hs, rfl⟩
  exact hs

theorem literal?_escapedTokens (p : Text) : literal? (p.map escapedToken) = some p ∨
    literal? (p.map escapedToken) = none ∧ ∃ c ∈ p, c ≠ '.' := by
  induction p with
  | nil => exact .inl rfl
  | cons c p ih =>
      rw [List.map_cons, escapedToken]
      split
      · next hc =>
          refine .inr ⟨rfl, c, List.mem_cons_self, ?_⟩
          rintro rfl
          exact absurd hc (by decide)
      · rw [literal?]
        rcases ih with hp | ⟨hp, d, hd, hdot⟩
        · exact .inl (by rw [hp]; rfl)
        · exact .inr ⟨by rw [hp]; rfl, d, List.mem_cons_of_mem c hd, hdot⟩

end Glob

end RouteTable
