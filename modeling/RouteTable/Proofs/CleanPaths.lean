import RouteTable.Proofs.Components

namespace RouteTable

namespace Text

variable {s : Text}

theorem pieces_congr {isSep isSep' : Char → Bool} (h : ∀ c ∈ s, isSep c = isSep' c) :
    pieces isSep s = pieces isSep' s := by
  induction s with
  | nil => rfl
  | cons c s ih =>
      rw [pieces, pieces, h c List.mem_cons_self, ih fun d hd => h d (List.mem_cons_of_mem c hd)]

theorem endsWith_cons (c d : Char) (s : Text) :
    endsWith c (d :: s) = true ↔ (s = [] ∧ d = c) ∨ endsWith c s = true := by
  cases s with
  | nil => simp [endsWith]
  | cons e s => simp [endsWith, List.getLast?_cons_cons]

theorem head_pieces_eq_nil_iff (s : Text) :
    (pieces Path.isSlash s).head? = some [] ↔ s = [] ∨ startsWith '/' s = true := by
  cases s with
  | nil => simp [pieces]
  | cons c s =>
      by_cases hc : c = '/'
      · subst hc
        simp [pieces, Path.isSlash, startsWith]
      · obtain ⟨p, ps, _, hpieces⟩ := Path.exists_pieces_cons hc s
        simp [hpieces, startsWith, hc]

end Text

namespace Path

variable {path s : Text} {ss : List Text}

theorem hasDoubleSlash_cons (c : Char) (s : Text) :
    hasDoubleSlash (c :: s) = true ↔ (c = '/' ∧ Text.startsWith '/' s = true) ∨ hasDoubleSlash s = true := by
  cases s with
  | nil => simp [hasDoubleSlash, Text.startsWith]
  | cons d s =>
      by_cases h : c = '/' ∧ d = '/'
      · obtain ⟨rfl, rfl⟩ := h
        simp [hasDoubleSlash, Text.startsWith]
      · rw [hasDoubleSlash]
        · simp [Text.startsWith, h]
        · rintro t rfl he
          exact h ⟨rfl, (List.cons.inj he).1⟩

/-- Behind the first slash a piece is empty where slashes meet and where the path ends in one. -/
theorem nil_mem_tail_pieces (s : Text) :
    [] ∈ (Text.pieces isSlash s).tail ↔ hasDoubleSlash s = true ∨ Text.endsWith '/' s = true := by
  induction s with
  | nil => simp [Text.pieces, hasDoubleSlash, Text.endsWith]
  | cons c s ih =>
      rw [hasDoubleSlash_cons, Text.endsWith_cons]
      by_cases hc : c = '/'
      · subst hc
        have hpieces : (Text.pieces isSlash ('/' :: s)).tail = Text.pieces isSlash s := rfl
        obtain ⟨p, ps, hs⟩ := List.exists_cons_of_ne_nil (Text.pieces_ne_nil isSlash s)
        have hhead := Text.head_pieces_eq_nil_iff s
        rw [hpieces]
        rw [hs] at ih hhead ⊢
        rw [List.head?_cons, Option.some.injEq] at hhead
        rw [List.tail_cons] at ih
        rw [List.mem_cons, ih, eq_comm, hhead]
        tauto
      · obtain ⟨p, ps, hs, hpieces⟩ := exists_pieces_cons hc s
        rw [hs] at ih
        rw [hpieces, List.tail_cons]
        simpa [hc] using ih

theorem isClean_iff : isClean path = true ↔ '\\' ∉ path ∧ ['.'] ∉ Text.pieces isSlash path ∧
    (path = ['/'] ∨ [] ∉ (Text.pieces isSlash path).tail) := by
  rw [nil_mem_tail_pieces, not_or]
  simp only [isClean, Bool.and_eq_true, Bool.or_eq_true, Bool.not_eq_true', List.contains_eq_mem,
    decide_eq_false_iff_not, beq_iff_eq, Bool.not_eq_true]
  constructor
  · rintro ⟨⟨⟨hback, hdouble⟩, hdot⟩, hroot | hend⟩
    · exact ⟨hback, hdot, .inl hroot⟩
    · exact ⟨hback, hdot, .inr ⟨hdouble, hend⟩⟩
  · rintro ⟨hback, hdot, rfl | ⟨hdouble, hend⟩⟩
    · exact ⟨⟨⟨hback, rfl⟩, hdot⟩, .inl rfl⟩
    · exact ⟨⟨⟨hback, hdouble⟩, hdot⟩, .inr hend⟩

structure IsCleanSegment (s : Text) : Prop where
  ne_nil : s ≠ []
  ne_dot : s ≠ ['.']
  slash_not_mem : '/' ∉ s
  backslash_not_mem : '\\' ∉ s

instance : Decidable (IsCleanSegment s) :=
  decidable_of_iff (s ≠ [] ∧ s ≠ ['.'] ∧ '/' ∉ s ∧ '\\' ∉ s)
    ⟨fun h => ⟨h.1, h.2.1, h.2.2.1, h.2.2.2⟩, fun h => ⟨h.ne_nil, h.ne_dot, h.slash_not_mem, h.backslash_not_mem⟩⟩

theorem IsCleanSegment.isSegment (h : IsCleanSegment s) : IsSegment s := ⟨h.ne_nil, h.slash_not_mem⟩

theorem mem_segments (h : s ∈ segments path) : IsCleanSegment s := by
  obtain ⟨hpart, hdot⟩ := List.mem_filter.1 h
  have hchar : ∀ c ∈ s, isSeparator c = false := fun c hc => (Text.mem_of_mem_parts hpart hc).2
  refine ⟨?_, by simpa using hdot, fun hc => ?_, fun hc => ?_⟩
  · simpa using (List.mem_filter.1 hpart).2
  · cases hchar _ hc
  · cases hchar _ hc

def isRooted (path : Text) : Bool := path.head?.any isSeparator

def spelled (rooted : Bool) (ss : List Text) : Text := (if rooted then ['/'] else []) ++ Text.joinWith '/' ss

theorem rebuild_eq_spelled (path : Text) : rebuild path = spelled (isRooted path) (segments path) := rfl

theorem isRooted_eq_startsWith (h : '\\' ∉ path) : isRooted path = Text.startsWith '/' path := by
  cases path with
  | nil => rfl
  | cons c path =>
      have hc : c ≠ '\\' := fun hc => h (hc ▸ List.mem_cons_self)
      simp [isRooted, isSeparator, Text.startsWith, hc]

theorem segments_eq_of_not_mem (h : '\\' ∉ path) :
    segments path = (Text.parts isSlash path).filter (· != ['.']) := by
  have hpieces : Text.pieces isSeparator path = Text.pieces isSlash path := by
    refine Text.pieces_congr fun c hc => ?_
    have hne : c ≠ '\\' := fun he => h (he ▸ hc)
    simp [isSeparator, isSlash, hne]
  rw [segments, Text.parts, hpieces, Text.parts]

section

variable (rooted : Bool) (h : ∀ s ∈ ss, IsCleanSegment s)
include h

theorem backslash_not_mem_spelled : '\\' ∉ spelled rooted ss := by
  rw [spelled, List.mem_append]
  rintro (hlead | hjoined)
  · split at hlead
    · cases List.mem_singleton.1 hlead
    · cases hlead
  · obtain ⟨s, hs, hc⟩ := (Text.mem_joinWith_iff (by decide)).1 hjoined
    exact (h s hs).backslash_not_mem hc

theorem parts_spelled : Text.parts isSlash (spelled rooted ss) = ss := by
  have hjoined := Text.parts_lead_joinWith (!rooted) fun s hs => (h s hs).isSegment
  cases rooted <;> exact hjoined

theorem segments_spelled : segments (spelled rooted ss) = ss := by
  rw [segments_eq_of_not_mem (backslash_not_mem_spelled rooted h), parts_spelled rooted h, List.filter_eq_self]
  intro s hs
  simpa using (h s hs).ne_dot

theorem isRooted_spelled : isRooted (spelled rooted ss) = rooted := by
  rw [isRooted_eq_startsWith (backslash_not_mem_spelled rooted h)]
  cases rooted with
  | true => rfl
  | false => exact Text.startsWith_joinWith fun s hs => (h s hs).isSegment

theorem pieces_spelled (hne : ss ≠ []) :
    Text.pieces isSlash (spelled rooted ss) = (if rooted then [[]] else []) ++ ss := by
  have hpieces : Text.pieces isSlash (Text.joinWith '/' ss) = ss :=
    Text.pieces_joinWith '/' hne fun s hs => (h s hs).slash_not_mem
  cases rooted with
  | true => exact congrArg ([] :: ·) hpieces
  | false => exact hpieces

theorem isClean_spelled : isClean (spelled rooted ss) = true := by
  have hback := backslash_not_mem_spelled rooted h
  by_cases hne : ss = []
  · subst hne
    cases rooted <;> decide
  · have hdot : ['.'] ∉ ss := fun hmem => (h _ hmem).ne_dot rfl
    have hnil : [] ∉ ss := fun hmem => (h _ hmem).ne_nil rfl
    rw [isClean_iff, pieces_spelled rooted h hne]
    cases rooted with
    | true => exact ⟨hback, by simpa using hdot, .inr hnil⟩
    | false => exact ⟨hback, hdot, .inr fun hmem => hnil (List.mem_of_mem_tail hmem)⟩

theorem rebuild_spelled : rebuild (spelled rooted ss) = spelled rooted ss := by
  rw [rebuild_eq_spelled, isRooted_spelled rooted h, segments_spelled rooted h]

end

/-- Clean paths are those spelled from clean segments. -/
theorem exists_eq_spelled (h : isClean path = true) :
    ∃ rooted ss, (∀ s ∈ ss, IsCleanSegment s) ∧ path = spelled rooted ss := by
  obtain ⟨hback, hdot, rfl | htail⟩ := isClean_iff.1 h
  · exact ⟨true, [], List.forall_mem_nil _, rfl⟩
  · have hjoined : Text.joinWith '/' (Text.pieces isSlash path) = path := Text.joinWith_pieces '/' path
    have hclean : ∀ p ∈ Text.pieces isSlash path, p ≠ [] → IsCleanSegment p := fun p hp hne =>
      ⟨hne, fun he => hdot (he ▸ hp), slash_not_mem_piece hp, fun hc => hback (Text.mem_of_mem_pieces hp hc).1⟩
    obtain ⟨p, ps, hpieces⟩ := List.exists_cons_of_ne_nil (Text.pieces_ne_nil isSlash path)
    rw [hpieces] at hjoined hclean htail
    have hps : ∀ q ∈ ps, IsCleanSegment q := fun q hq =>
      hclean q (List.mem_cons_of_mem p hq) fun he => htail (he ▸ hq)
    -- only the first piece can be empty, and then the others follow a slash
    by_cases hp : p = []
    · subst hp
      by_cases hnone : ps = []
      · subst hnone
        exact ⟨false, [], List.forall_mem_nil _, hjoined.symm⟩
      · rw [Text.joinWith_cons_cons '/' [] hnone] at hjoined
        exact ⟨true, ps, hps, hjoined.symm⟩
    · exact ⟨false, p :: ps, List.forall_mem_cons.2 ⟨hclean p List.mem_cons_self hp, hps⟩, hjoined.symm⟩

theorem rebuild_eq_self (h : isClean path = true) : rebuild path = path := by
  obtain ⟨rooted, ss, hss, rfl⟩ := exists_eq_spelled h
  exact rebuild_spelled rooted hss

theorem isClean_rebuild (path : Text) : isClean (rebuild path) = true :=
  isClean_spelled (isRooted path) fun _ => mem_segments

theorem clean_eq_rebuild (path : Text) : clean path = rebuild path := by
  unfold clean
  split
  · next h => exact (rebuild_eq_self h).symm
  · rfl

theorem clean_eq_spelled (path : Text) : clean path = spelled (isRooted path) (segments path) := clean_eq_rebuild path

theorem isClean_clean (path : Text) : isClean (clean path) = true := clean_eq_rebuild path ▸ isClean_rebuild path

theorem backslash_not_mem_clean (path : Text) : '\\' ∉ clean path := (isClean_iff.1 (isClean_clean path)).1

theorem dot_not_mem_pieces_clean (path : Text) : ['.'] ∉ Text.pieces isSlash (clean path) :=
  (isClean_iff.1 (isClean_clean path)).2.1

theorem spelled_inj {rooted rooted' : Bool} {ss ss' : List Text} (h : ∀ s ∈ ss, IsCleanSegment s)
    (h' : ∀ s ∈ ss', IsCleanSegment s) :
    spelled rooted ss = spelled rooted' ss' ↔ rooted = rooted' ∧ ss = ss' := by
  constructor
  · intro he
    have hrooted := congrArg isRooted he
    have hsegments := congrArg segments he
    rw [isRooted_spelled rooted h, isRooted_spelled rooted' h'] at hrooted
    rw [segments_spelled rooted h, segments_spelled rooted' h'] at hsegments
    exact ⟨hrooted, hsegments⟩
  · rintro ⟨rfl, rfl⟩
    rfl

/-- Rebuilding changes just the paths that are not clean, so cleaning is rebuilding; a clean form is clean, and it
tells the segments of a path and whether a separator is in front of them, and nothing else. -/
theorem clean_canonical :
    (∀ path, isClean path = true ↔ rebuild path = path) ∧
      (∀ path, isClean (clean path) = true ∧ clean (clean path) = clean path) ∧
      ∀ path path', clean path = clean path' ↔
        path.head?.any isSeparator = path'.head?.any isSeparator ∧ segments path = segments path' := by
  refine ⟨fun path => ⟨rebuild_eq_self, fun h => h ▸ isClean_rebuild path⟩, fun path => ?_, fun path path' => ?_⟩
  · have hclean := isClean_clean path
    exact ⟨hclean, (clean_eq_rebuild (clean path)).trans (rebuild_eq_self hclean)⟩
  · rw [clean_eq_spelled, clean_eq_spelled]
    exact spelled_inj (fun _ => mem_segments) fun _ => mem_segments

end Path

end RouteTable
