import RouteTable.Path.Clean
import RouteTable.Proofs.Paths

namespace RouteTable

namespace Text

theorem pieces_append_cons {isSep : Char → Bool} {sep : Char} (hsep : isSep sep = true) (s t : Text) :
    pieces isSep (s ++ sep :: t) = pieces isSep s ++ pieces isSep t := by
  induction s with
  | nil => simp [pieces, hsep]
  | cons c s ih =>
      obtain ⟨p, ps, hpieces⟩ := List.exists_cons_of_ne_nil (pieces_ne_nil isSep s)
      by_cases hc : isSep c
      · simp [pieces, hc, ih]
      · simp [pieces, hc, ih, hpieces]

end Text

namespace Path

variable {path step : Text} {c : Component}

def steps (path : Text) : List Text := (Text.pieces isSlash path).filter fun p => !isVoid p

theorem steps_append_slash (s t : Text) : steps (s ++ '/' :: t) = steps s ++ steps t := by
  rw [steps, Text.pieces_append_cons rfl, List.filter_append]
  rfl

theorem steps_cons_slash (s : Text) : steps ('/' :: s) = steps s := steps_append_slash [] s

theorem steps_cons_dot (h : path = [] ∨ ∃ rest, path = '/' :: rest) : steps ('.' :: path) = steps path := by
  rcases h with rfl | ⟨rest, rfl⟩
  · rfl
  · exact (steps_append_slash ['.'] rest).trans (steps_cons_slash rest).symm

theorem steps_joinWith {ps : List Text} (h : ∀ p ∈ ps, '/' ∉ p) :
    steps (Text.joinWith '/' ps) = ps.filter fun p => !isVoid p := by
  cases ps with
  | nil => rfl
  | cons p ps =>
      have hpieces : Text.pieces isSlash (Text.joinWith '/' (p :: ps)) = p :: ps :=
        Text.pieces_joinWith '/' (List.cons_ne_nil p ps) h
      rw [steps, hpieces]

theorem slash_not_mem_piece {p : Text} (h : p ∈ Text.pieces isSlash path) : '/' ∉ p := by
  intro hslash
  cases (Text.mem_of_mem_pieces h hslash).2

theorem mem_steps {p : Text} : p ∈ steps path ↔ p ∈ Text.pieces isSlash path ∧ isVoid p = false := by
  simp [steps]

theorem isAbsolute_eq_false_of_not_mem (h : '/' ∉ path) : isAbsolute path = false := by
  cases path with
  | nil => rfl
  | cons d path =>
      have hd : d ≠ '/' := fun hd => h (hd ▸ List.mem_cons_self)
      simpa [isAbsolute, Text.startsWith] using hd

theorem exists_pieces_cons {d : Char} (hd : d ≠ '/') (s : Text) :
    ∃ p ps, Text.pieces isSlash s = p :: ps ∧ Text.pieces isSlash (d :: s) = (d :: p) :: ps := by
  obtain ⟨p, ps, hpieces⟩ := List.exists_cons_of_ne_nil (Text.pieces_ne_nil isSlash s)
  exact ⟨p, ps, hpieces, by simp [Text.pieces, isSlash, hd, hpieces]⟩

theorem anchored_cases (path : Text) :
    (∃ rest, path = '/' :: rest ∧ anchored path = (['/'], rest)) ∨
      (∃ body, path = '.' :: body ∧ anchored path = (['.'], body) ∧ (body = [] ∨ ∃ rest, body = '/' :: rest)) ∨
      (isAbsolute path = false ∧ anchored path = ([], path) ∧ (Text.pieces isSlash path).head? ≠ some ['.']) := by
  unfold anchored
  split
  · next rest => exact .inl ⟨rest, rfl, rfl⟩
  · exact .inr (.inl ⟨[], rfl, rfl, .inl rfl⟩)
  · next rest => exact .inr (.inl ⟨'/' :: rest, rfl, rfl, .inr ⟨rest, rfl⟩⟩)
  · next hslash hdot hdots =>
      refine .inr (.inr ⟨?_, rfl, ?_⟩)
      · cases path with
        | nil => rfl
        | cons d s =>
            have hd : d ≠ '/' := fun hd => hslash s (hd ▸ rfl)
            simpa [isAbsolute, Text.startsWith] using hd
      · cases path with
        | nil => decide
        | cons d s =>
            have hd : d ≠ '/' := fun hd => hslash s (hd ▸ rfl)
            obtain ⟨p, ps, hs, hpieces⟩ := exists_pieces_cons hd s
            rw [hpieces]
            intro hhead
            obtain ⟨rfl, rfl⟩ : d = '.' ∧ p = [] := by simpa using hhead
            cases s with
            | nil => exact hdot rfl
            | cons e s =>
                have he : e ≠ '/' := fun he => hdots s (he ▸ rfl)
                obtain ⟨q, qs, _, hpieces'⟩ := exists_pieces_cons he s
                rw [hpieces'] at hs
                cases hs

theorem Component.text_ofPiece (p : Text) : (Component.ofPiece p).text = p := by
  unfold Component.ofPiece
  split
  · next hup => exact hup.symm
  · rfl

theorem Component.ofPiece_cases (p : Text) : Component.ofPiece p = .up ∨ Component.ofPiece p = .name p := by
  unfold Component.ofPiece
  split
  · exact .inl rfl
  · exact .inr rfl

theorem Component.ofPiece_ne_root (p : Text) : Component.ofPiece p ≠ .root := by
  rcases Component.ofPiece_cases p with h | h <;> simp [h]

theorem filter_ne_here_map_ofPiece (ps : List Text) :
    (ps.map Component.ofPiece).filter (· != .here) = ps.map Component.ofPiece := by
  refine List.filter_eq_self.2 fun c hc => ?_
  obtain ⟨p, _, rfl⟩ := List.mem_map.1 hc
  rcases Component.ofPiece_cases p with h | h <;> simp [h]

/-- A root where the path starts with a slash, then a component for each step. -/
theorem plainComponents_eq (path : Text) :
    plainComponents path = (if isAbsolute path then [.root] else []) ++ (steps path).map Component.ofPiece := by
  have hbody : ∀ anchor body, anchored path = (anchor, body) → plainComponents path =
      (anchorComponents anchor).filter (· != .here) ++ (steps body).map Component.ofPiece := by
    intro anchor body h
    rw [plainComponents, components, h, List.filter_append, filter_ne_here_map_ofPiece]
    rfl
  rcases anchored_cases path with ⟨rest, rfl, h⟩ | ⟨body, rfl, h, hrest⟩ | ⟨habsolute, h, _⟩
  · rw [hbody _ _ h, steps_cons_slash]
    rfl
  · rw [hbody _ _ h, steps_cons_dot hrest]
    rfl
  · rw [hbody _ _ h, habsolute]
    rfl

theorem root_not_mem_map_ofPiece {ps : List Text} : .root ∉ ps.map Component.ofPiece := by
  intro h
  obtain ⟨p, _, hp⟩ := List.mem_map.1 h
  exact Component.ofPiece_ne_root p hp

theorem root_mem_plainComponents : .root ∈ plainComponents path ↔ isAbsolute path = true := by
  rw [plainComponents_eq, List.mem_append, or_iff_left root_not_mem_map_ofPiece]
  cases isAbsolute path <;> simp

def Component.Sole (c : Component) : Prop := plainComponents c.text = [c]

theorem sole_of_mem (h : c ∈ plainComponents path) : c.Sole := by
  rw [plainComponents_eq, List.mem_append] at h
  rcases h with h | h
  · have hroot : c = .root := by
      split at h
      · exact List.mem_singleton.1 h
      · cases h
    rw [hroot]
    rfl
  · obtain ⟨p, hp, rfl⟩ := List.mem_map.1 h
    obtain ⟨hpiece, hvoid⟩ := mem_steps.1 hp
    have hslash := slash_not_mem_piece hpiece
    have hsteps : steps p = [p] := by
      have hjoin : steps (Text.joinWith '/' [p]) = [p].filter fun q => !isVoid q :=
        steps_joinWith fun q hq => List.mem_singleton.1 hq ▸ hslash
      rwa [Text.joinWith, List.filter_singleton, hvoid] at hjoin
    rw [Component.Sole, Component.text_ofPiece, plainComponents_eq, isAbsolute_eq_false_of_not_mem hslash, hsteps]
    rfl

theorem plainComponents_push (path step : Text) : plainComponents (push path step) =
    if isAbsolute step then plainComponents step else plainComponents path ++ plainComponents step := by
  rw [push]
  split
  · rfl
  · next hstep =>
      have hown : plainComponents step = (steps step).map Component.ofPiece := by
        rw [plainComponents_eq, if_neg hstep]
        rfl
      rw [hown]
      split
      · next hend =>
          rcases Bool.or_eq_true_iff.1 hend with hempty | hslash
          · rw [List.isEmpty_iff.1 hempty, List.nil_append, hown]
            rfl
          · obtain ⟨front, rfl⟩ := List.getLast?_eq_some_iff.1 (beq_iff_eq.1 hslash)
            have habsolute : isAbsolute (front ++ '/' :: step) = isAbsolute (front ++ ['/']) := by cases front <;> rfl
            rw [List.append_assoc, List.singleton_append, plainComponents_eq, plainComponents_eq, habsolute,
              steps_append_slash, steps_append_slash, List.map_append, List.map_append, List.append_assoc,
              List.append_assoc]
            rfl
      · next hend =>
          have hne : path ≠ [] := fun hnil => hend (by simp [hnil])
          obtain ⟨d, s, rfl⟩ := List.exists_cons_of_ne_nil hne
          have habsolute : isAbsolute (d :: s ++ '/' :: step) = isAbsolute (d :: s) := rfl
          rw [plainComponents_eq, plainComponents_eq, habsolute, steps_append_slash, List.map_append, List.append_assoc]

theorem plainComponents_foldl_push {cs : List Component} (h : ∀ c ∈ cs, c ≠ .root ∧ c.Sole) (path : Text) :
    plainComponents (cs.foldl (fun path c => push path c.text) path) = plainComponents path ++ cs := by
  induction cs generalizing path with
  | nil => exact (List.append_nil _).symm
  | cons c cs ih =>
      obtain ⟨hroot, hsole⟩ := h c List.mem_cons_self
      have hrelative : isAbsolute c.text ≠ true := by
        intro habsolute
        have hmem := root_mem_plainComponents.2 habsolute
        rw [hsole, List.mem_singleton] at hmem
        exact hroot hmem.symm
      rw [List.foldl_cons, ih (fun d hd => h d (List.mem_cons_of_mem c hd)), plainComponents_push, if_neg hrelative,
        hsole, List.append_assoc]
      rfl

theorem plainComponents_ofComponents {cs : List Component} (h : ∀ c ∈ cs, c ≠ .root ∧ c.Sole) :
    plainComponents (ofComponents cs) = cs :=
  plainComponents_foldl_push h []

theorem filter_dropWhile_isVoid (ps : List Text) :
    (ps.dropWhile isVoid).filter (fun p => !isVoid p) = ps.filter fun p => !isVoid p := by
  induction ps with
  | nil => rfl
  | cons p ps ih =>
      by_cases hp : isVoid p
      · rw [List.dropWhile_cons_of_pos hp, ih, List.filter_cons_of_neg (by simp [hp])]
      · rw [List.dropWhile_cons_of_neg hp]

theorem steps_eq_nil_of_dropWhile {body : Text} (h : (Text.pieces isSlash body).reverse.dropWhile isVoid = []) :
    steps body = [] := by
  have hnone := filter_dropWhile_isVoid (Text.pieces isSlash body).reverse
  rw [h, List.filter_reverse] at hnone
  exact List.reverse_eq_nil_iff.1 hnone.symm

theorem steps_of_dropWhile {body p : Text} {before : List Text}
    (h : (Text.pieces isSlash body).reverse.dropWhile isVoid = p :: before) :
    ∃ front, (before.dropWhile isVoid).reverse = front ∧ front <+: Text.pieces isSlash body ∧
      (∀ q ∈ front, '/' ∉ q) ∧ steps body = steps (Text.joinWith '/' front) ++ [p] := by
  have hp : isVoid p = false := by
    have hhead := List.head_dropWhile_not (p := isVoid) (l := (Text.pieces isSlash body).reverse) (by simp [h])
    simpa [h] using hhead
  have hsuffix : before.dropWhile isVoid <:+ (Text.pieces isSlash body).reverse :=
    ((List.dropWhile_suffix _).trans (List.suffix_cons p before)).trans (h ▸ List.dropWhile_suffix _)
  have hfront : (before.dropWhile isVoid).reverse <+: Text.pieces isSlash body := by
    simpa using List.reverse_prefix.2 hsuffix
  have hslash : ∀ q ∈ (before.dropWhile isVoid).reverse, '/' ∉ q :=
    fun q hq => slash_not_mem_piece (hfront.sublist.mem hq)
  refine ⟨_, rfl, hfront, hslash, ?_⟩
  have hfilter := filter_dropWhile_isVoid (Text.pieces isSlash body).reverse
  rw [h, List.filter_cons_of_pos (by simp [hp]), ← filter_dropWhile_isVoid before] at hfilter
  rw [steps_joinWith hslash, List.filter_reverse, steps]
  have hreverse := congrArg List.reverse hfilter
  rw [List.filter_reverse, List.reverse_reverse] at hreverse
  rw [← hreverse, List.reverse_cons]

theorem slash_leads_of_front {body : Text} {front : List Text} (h : body = [] ∨ ∃ rest, body = '/' :: rest)
    (hfront : front <+: Text.pieces isSlash body) :
    Text.joinWith '/' front = [] ∨ ∃ rest, Text.joinWith '/' front = '/' :: rest := by
  have hpieces : ∃ more, Text.pieces isSlash body = [] :: more := by
    rcases h with rfl | ⟨rest, rfl⟩
    · exact ⟨[], rfl⟩
    · exact ⟨_, rfl⟩
  obtain ⟨more, hmore⟩ := hpieces
  rw [hmore] at hfront
  cases front with
  | nil => exact .inl rfl
  | cons p front =>
      obtain ⟨rfl, _⟩ := List.cons_prefix_cons.1 hfront
      cases front with
      | nil => exact .inl rfl
      | cons q front => exact .inr ⟨_, rfl⟩

theorem isAbsolute_joinWith_of_front {front : List Text} (h : isAbsolute path = false)
    (hfront : front <+: Text.pieces isSlash path) (hslash : ∀ q ∈ front, '/' ∉ q) :
    isAbsolute (Text.joinWith '/' front) = false := by
  by_contra habsolute
  obtain ⟨hhead, hlength⟩ := (Text.startsWith_joinWith_iff hslash).1 (by simpa [isAbsolute] using habsolute)
  have hpath : Text.startsWith '/' (Text.joinWith '/' (Text.pieces isSlash path)) = true := by
    refine (Text.startsWith_joinWith_iff fun q => slash_not_mem_piece).2 ⟨?_, ?_⟩
    · obtain ⟨more, hmore⟩ := hfront
      rw [← hmore, List.head?_append, hhead]
      rfl
    · exact Nat.lt_of_lt_of_le hlength hfront.length_le
  have hjoin : Text.joinWith '/' (Text.pieces isSlash path) = path := Text.joinWith_pieces '/' path
  rw [hjoin] at hpath
  rw [isAbsolute, hpath] at h
  cases h

theorem plainComponents_parent {directory : Text} (h : parent? path = some directory) :
    plainComponents directory = (plainComponents path).dropLast := by
  have hparent : ∀ anchor body, anchored path = (anchor, body) →
      (steps body = [] ∧ anchor = ['.'] ∧ directory = []) ∨ ∃ front p, directory = anchor ++ Text.joinWith '/' front ∧
        front <+: Text.pieces isSlash body ∧ (∀ q ∈ front, '/' ∉ q) ∧
        steps body = steps (Text.joinWith '/' front) ++ [p] := by
    intro anchor body hanchored
    simp only [parent?, hanchored] at h
    split at h
    · next p before hdrop =>
        obtain ⟨front, hfront, hrest⟩ := steps_of_dropWhile hdrop
        exact .inr ⟨front, p, by rw [← Option.some.inj h, hfront], hrest⟩
    · next hdrop =>
        split at h
        · next hanchor => exact .inl ⟨steps_eq_nil_of_dropWhile hdrop, hanchor, (Option.some.inj h).symm⟩
        · cases h
  have hlast : ∀ (lead : List Component) (ps : List Text) (p : Text),
      (lead ++ (ps ++ [p]).map Component.ofPiece).dropLast = lead ++ ps.map Component.ofPiece := by
    intro lead ps p
    rw [List.map_append, ← List.append_assoc]
    exact List.dropLast_concat
  -- the anchor stays in front of the parent, which must not read it in another way
  rcases anchored_cases path with ⟨rest, rfl, ha⟩ | ⟨body, rfl, ha, hbody⟩ | ⟨habsolute, ha, _⟩
  · rcases hparent _ _ ha with ⟨_, hdot, _⟩ | ⟨front, p, rfl, _, _, hsteps⟩
    · cases hdot
    · have hstart : ∀ s, plainComponents ('/' :: s) = [.root] ++ (steps s).map Component.ofPiece := fun s => by
        rw [plainComponents_eq, steps_cons_slash]
        rfl
      rw [hstart, hsteps, hlast]
      exact hstart _
  · have hstart : ∀ s, (s = [] ∨ ∃ rest, s = '/' :: rest) →
        plainComponents ('.' :: s) = [] ++ (steps s).map Component.ofPiece := fun s hs => by
      rw [plainComponents_eq, steps_cons_dot hs]
      rfl
    rcases hparent _ _ ha with ⟨hnone, _, rfl⟩ | ⟨front, p, rfl, hfront, _, hsteps⟩
    · rw [hstart body hbody, hnone]
      rfl
    · rw [hstart body hbody, hsteps, hlast]
      exact hstart _ (slash_leads_of_front hbody hfront)
  · rcases hparent _ _ ha with ⟨_, hdot, _⟩ | ⟨front, p, rfl, hfront, hslash, hsteps⟩
    · cases hdot
    · rw [plainComponents_eq path, habsolute, hsteps, if_neg Bool.false_ne_true, hlast, List.nil_append,
        plainComponents_eq, isAbsolute_joinWith_of_front habsolute hfront hslash]
      rfl

end Path

end RouteTable
