import RouteTable.Proofs.NormalForm

namespace RouteTable

open Segment

def Path.IsSegment (s : Text) : Prop := s ≠ [] ∧ '/' ∉ s

namespace Text

variable {isSep : Char → Bool} {sep c : Char} {s p : Text} {ps : List Text}

theorem mem_of_mem_pieces (hp : p ∈ pieces isSep s) (hc : c ∈ p) : c ∈ s ∧ isSep c = false := by
  induction s generalizing p with
  | nil =>
      cases List.mem_singleton.1 hp
      cases hc
  | cons d s ih =>
      rw [pieces] at hp
      split at hp
      · rcases List.mem_cons.1 hp with rfl | hp
        · cases hc
        · exact (ih hp hc).imp_left (List.mem_cons_of_mem d)
      · next hd =>
          obtain ⟨q, qs, hpieces⟩ := List.exists_cons_of_ne_nil (pieces_ne_nil isSep s)
          rw [hpieces] at hp ih
          rcases List.mem_cons.1 hp with rfl | hp
          · rcases List.mem_cons.1 hc with rfl | hc
            · exact ⟨List.mem_cons_self, by simpa using hd⟩
            · exact (ih List.mem_cons_self hc).imp_left (List.mem_cons_of_mem d)
          · exact (ih (List.mem_cons_of_mem _ hp) hc).imp_left (List.mem_cons_of_mem d)

theorem mem_of_mem_parts (hp : p ∈ parts isSep s) (hc : c ∈ p) : c ∈ s ∧ isSep c = false :=
  mem_of_mem_pieces (List.mem_filter.1 hp).1 hc

theorem parts_ne_nil_of_mem (hc : c ∈ s) (hsep : isSep c = false) : parts isSep s ≠ [] := by
  induction s with
  | nil => cases hc
  | cons d s ih =>
      obtain ⟨q, qs, hpieces⟩ := List.exists_cons_of_ne_nil (pieces_ne_nil isSep s)
      by_cases hd : isSep d
      · have hcs : c ∈ s := by
          rcases List.mem_cons.1 hc with rfl | hc
          · rw [hsep] at hd
            cases hd
          · exact hc
        simpa [parts, pieces, hd] using ih hcs
      · simp [parts, pieces, hd, hpieces]

theorem mem_joinWith_of_mem (hp : p ∈ ps) (hc : c ∈ p) : c ∈ joinWith sep ps := by
  induction ps with
  | nil => cases hp
  | cons q ps ih =>
      cases ps with
      | nil =>
          cases List.mem_singleton.1 hp
          exact hc
      | cons q' ps =>
          rw [joinWith_cons_cons sep q (List.cons_ne_nil q' ps), List.mem_append, List.mem_cons]
          rcases List.mem_cons.1 hp with rfl | hp
          · exact .inl hc
          · exact .inr (.inr (ih hp))

theorem flatMap_cons_eq_joinWith (sep : Char) (hne : ps ≠ []) :
    ps.flatMap (sep :: ·) = sep :: joinWith sep ps := by
  induction ps with
  | nil => exact absurd rfl hne
  | cons p ps ih =>
      cases ps with
      | nil => simp [joinWith]
      | cons q ps =>
          rw [List.flatMap_cons, ih (List.cons_ne_nil q ps), joinWith_cons_cons sep p (List.cons_ne_nil q ps)]
          rfl

theorem joinWith_append_of_ne_nil (sep : Char) {ps qs : List Text} (hps : ps ≠ []) (hqs : qs ≠ []) :
    joinWith sep (ps ++ qs) = joinWith sep ps ++ sep :: joinWith sep qs := by
  induction ps with
  | nil => exact absurd rfl hps
  | cons p ps ih =>
      cases ps with
      | nil => exact joinWith_cons_cons sep p hqs
      | cons p' ps =>
          rw [List.cons_append, joinWith_cons_cons sep p (by simp), ih (List.cons_ne_nil p' ps),
            joinWith_cons_cons sep p (List.cons_ne_nil p' ps), List.append_assoc]
          rfl

theorem parts_joinWith_eq_filter (h : ∀ p ∈ ps, '/' ∉ p) :
    parts Path.isSlash (joinWith '/' ps) = ps.filter fun p => !p.isEmpty := by
  cases ps with
  | nil => rfl
  | cons p ps =>
      have hpieces : pieces Path.isSlash (joinWith '/' (p :: ps)) = p :: ps :=
        pieces_joinWith '/' (List.cons_ne_nil p ps) h
      rw [parts, hpieces]

theorem parts_joinWith (h : ∀ p ∈ ps, Path.IsSegment p) : parts Path.isSlash (joinWith '/' ps) = ps := by
  rw [parts_joinWith_eq_filter fun p hp => (h p hp).2, List.filter_eq_self]
  intro p hp
  simpa using (h p hp).1

theorem startsWith_joinWith (h : ∀ p ∈ ps, Path.IsSegment p) : startsWith '/' (joinWith '/' ps) = false := by
  cases ps with
  | nil => rfl
  | cons p ps =>
      obtain ⟨hne, hslash⟩ := h p List.mem_cons_self
      obtain ⟨c, p, rfl⟩ := List.exists_cons_of_ne_nil hne
      have hc : c ≠ '/' := fun hc => hslash (hc ▸ List.mem_cons_self)
      cases ps with
      | nil => simpa [joinWith, startsWith] using hc
      | cons q ps => simpa [joinWith, startsWith] using hc

theorem startsWith_joinWith_iff (h : ∀ p ∈ ps, sep ∉ p) :
    startsWith sep (joinWith sep ps) = true ↔ ps.head? = some [] ∧ 1 < ps.length := by
  cases ps with
  | nil => simp [joinWith, startsWith]
  | cons p ps =>
      have hp : ∀ rest, startsWith sep (p ++ rest) = true → p = [] := by
        intro rest hstart
        cases p with
        | nil => rfl
        | cons d p =>
            have hd : d = sep := by simpa [startsWith] using hstart
            exact absurd (hd ▸ List.mem_cons_self) (h (d :: p) List.mem_cons_self)
      cases ps with
      | nil =>
          constructor
          · intro hstart
            rw [joinWith] at hstart
            rw [hp [] (by rwa [List.append_nil])] at hstart
            cases hstart
          · rintro ⟨_, hlength⟩
            simp at hlength
      | cons q ps =>
          rw [joinWith]
          constructor
          · intro hstart
            simp [hp _ hstart]
          · rintro ⟨hempty, _⟩
            have hnil : p = [] := by simpa using hempty
            simp [hnil, startsWith]

theorem mem_joinWith_iff (hc : c ≠ sep) : c ∈ joinWith sep ps ↔ ∃ p ∈ ps, c ∈ p := by
  refine ⟨fun h => ?_, fun ⟨p, hp, h⟩ => mem_joinWith_of_mem hp h⟩
  induction ps with
  | nil => cases h
  | cons p ps ih =>
      cases ps with
      | nil => exact ⟨p, List.mem_cons_self, h⟩
      | cons q ps =>
          rw [joinWith, List.mem_append, List.mem_cons] at h
          rcases h with h | h | h
          · exact ⟨p, List.mem_cons_self, h⟩
          · exact absurd h hc
          · obtain ⟨r, hr, hcr⟩ := ih h
            exact ⟨r, List.mem_cons_of_mem p hr, hcr⟩

theorem parts_lead (nested : Bool) (s : Text) :
    parts Path.isSlash ((if nested then [] else ['/']) ++ s) = parts Path.isSlash s := by
  cases nested <;> rfl

theorem parts_lead_joinWith (nested : Bool) (h : ∀ p ∈ ps, Path.IsSegment p) :
    parts Path.isSlash ((if nested then [] else ['/']) ++ joinWith '/' ps) = ps := by
  rw [parts_lead, parts_joinWith h]

end Text

namespace Segment

variable {c : Char} {raw key : Text} {keys : List Text}

/-- The keys that give segments: a last key `index` gives none. -/
def withoutIndex (keys : List Text) : List Text :=
  if keys.getLast? = some indexKey then keys.dropLast else keys

theorem withoutIndex_of_not_mem (h : indexKey ∉ keys) : withoutIndex keys = keys := by
  rw [withoutIndex, if_neg]
  intro hlast
  exact h (List.mem_of_getLast? hlast)

theorem withoutIndex_cases (keys : List Text) :
    withoutIndex keys = keys ∨ ∃ front, keys = front ++ [indexKey] ∧ withoutIndex keys = front := by
  rw [withoutIndex]
  split
  · next hlast => exact .inr ⟨keys.dropLast, (List.dropLast_append_getLast? indexKey hlast).symm, rfl⟩
  · exact .inl rfl

theorem withoutIndex_append (front : List Text) (hne : keys ≠ []) :
    withoutIndex (front ++ keys) = front ++ withoutIndex keys := by
  rw [withoutIndex, withoutIndex, List.getLast?_append_of_ne_nil front hne, List.dropLast_append_of_ne_nil hne]
  split <;> rfl

theorem withoutIndex_cons_cons (key key' : Text) (keys : List Text) :
    withoutIndex (key :: key' :: keys) = key :: withoutIndex (key' :: keys) :=
  withoutIndex_append [key] (List.cons_ne_nil key' keys)

theorem withoutIndex_eq_take_append {base : Nat} (h : base < keys.length) :
    withoutIndex keys = keys.take base ++ withoutIndex (keys.drop base) := by
  have hne : keys.drop base ≠ [] := by simpa using h
  rw [← withoutIndex_append (keys.take base) hne, List.take_append_drop]

theorem withoutIndex_sublist (keys : List Text) : (withoutIndex keys).Sublist keys := by
  rcases withoutIndex_cases keys with hsame | ⟨front, hkeys, hfront⟩
  · rw [hsame]
  · rw [hfront, hkeys]
    exact List.sublist_append_left front [indexKey]

theorem key_ne_nil (h : raw.all Text.isBlank = false) : (ofText raw).key ≠ [] := by
  obtain ⟨c, hc, hblank⟩ := List.all_eq_false.1 h
  have hwords : Text.words raw ≠ [] := Text.parts_ne_nil_of_mem hc (by simpa using hblank)
  obtain ⟨key, mixins, hkey⟩ := List.exists_cons_of_ne_nil hwords
  have hmem : key ∈ Text.words raw := hkey ▸ List.mem_cons_self
  rw [ofText, hkey]
  simpa using (List.mem_filter.1 hmem).2

theorem mem_of_mem_key (h : c ∈ (ofText raw).key) : c ∈ raw := by
  rw [ofText] at h
  split at h
  · cases h
  · next hwords => exact (Text.mem_of_mem_parts (hwords ▸ List.mem_cons_self) h).1

theorem isSegment_pattern (h : Path.IsSegment key) : Path.IsSegment (pattern key) :=
  ⟨pattern_ne_nil h.1, fun hc => h.2 (mem_of_mem_pattern (by decide) (by decide) hc)⟩

theorem isSegment_required (h : Path.IsSegment key) : Path.IsSegment (required key) :=
  ⟨required_ne_nil h.1, fun hc => h.2 (mem_of_mem_required hc)⟩

def patterns (keys : List Text) : List Text := (withoutIndex keys).map pattern

theorem isSegment_of_mem_patterns (h : ∀ key ∈ keys, Path.IsSegment key) : ∀ s ∈ patterns keys, Path.IsSegment s := by
  intro s hs
  obtain ⟨key, hkey, rfl⟩ := List.mem_map.1 hs
  exact isSegment_pattern (h key ((withoutIndex_sublist keys).mem hkey))

end Segment

namespace Landing

theorem pathFrom_of_pos {depth : Nat} (h : 0 < depth) (keys : List Text) :
    pathFrom depth keys = (patterns keys).flatMap ('/' :: ·) := by
  induction keys generalizing depth with
  | nil => rfl
  | cons key keys ih =>
      have hdepth : (depth == 0) = false := beq_false_of_ne (Nat.ne_of_gt h)
      rw [pathFrom, ih (Nat.succ_pos depth), hdepth]
      cases keys with
      | nil =>
          by_cases hkey : key = indexKey
          · subst hkey
            rfl
          · simp [extendPath, patterns, withoutIndex, hkey]
      | cons key' keys => simp [extendPath, patterns, withoutIndex_cons_cons]

theorem pathFrom_zero {keys : List Text} (hne : keys ≠ []) :
    pathFrom 0 keys = '/' :: Text.joinWith '/' (patterns keys) := by
  cases keys with
  | nil => exact absurd rfl hne
  | cons key keys =>
      rw [pathFrom, pathFrom_of_pos (Nat.succ_pos 0)]
      cases keys with
      | nil =>
          by_cases hkey : key = indexKey
          · subst hkey
            rfl
          · simp [extendPath, patterns, withoutIndex, hkey, Text.joinWith]
      | cons key' keys =>
          have hpatterns : patterns (key :: key' :: keys) = pattern key :: patterns (key' :: keys) := by
            rw [patterns, withoutIndex_cons_cons, List.map_cons, patterns]
          rw [← Text.flatMap_cons_eq_joinWith '/' (by simp [hpatterns]), hpatterns]
          simp [extendPath]

end Landing

theorem Page.slash_not_mem_routeKeys {options : CompileOptions} {files : List Text} {page : Page}
    (h : page ∈ Compilation.pagesOf options files) : ∀ key ∈ page.routeKeys, '/' ∉ key := by
  intro key hkey hslash
  obtain ⟨raw, hraw, rfl⟩ := List.mem_map.1 hkey
  rw [(FileRole.of_eq_page (Compilation.mem_pagesOf.1 h).2).2.1] at hraw
  have hsep := (Text.mem_of_mem_parts hraw (mem_of_mem_key hslash)).2
  cases hsep

namespace Route

def segments (r : Route) : List Text := Text.parts Path.isSlash r.path

variable {r : Route} {above : Option Route}

theorem withoutSlash_flatMap (segments : List Text) :
    withoutSlash (segments.flatMap ('/' :: ·)) = Text.joinWith '/' segments := by
  cases segments with
  | nil => rfl
  | cons segment segments => rw [Text.flatMap_cons_eq_joinWith '/' (List.cons_ne_nil _ _), withoutSlash]

theorem Joins.bare_path (h : r.Joins above) (hne : r.origin.keys ≠ []) :
    (if above.isSome then withoutSlash r.path else r.path) =
      (if above.isSome then [] else ['/']) ++
        Text.joinWith '/' (patterns (r.origin.keys.drop r.origin.base)) := by
  rw [h.path_eq]
  cases above with
  | none =>
      rw [h.top rfl]
      exact Landing.pathFrom_zero hne
  | some p =>
      rw [Landing.pathFrom_of_pos (h.below p rfl).1]
      exact withoutSlash_flatMap _

end Route

end RouteTable
