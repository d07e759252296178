import RouteTable.Proofs.Components

namespace RouteTable.Path

def Component.isName : Component → Bool
  | name _ => true
  | _ => false

/-- The components after one more, read as text: a step up takes the name before it away, or stays. -/
def goOn (cs : List Component) : Component → List Component
  | .root => [.root]
  | .here => cs
  | .up => if cs.getLast?.any Component.isName then cs.dropLast else cs ++ [.up]
  | .name s => cs ++ [.name s]

def goAll (cs ds : List Component) : List Component := ds.foldl goOn cs

def lexical (path : Text) : List Component := goAll [] (components path)

/-- Where a way leads that starts in a directory. -/
def resolve (directory way : Text) : List Component := goAll (lexical directory) (components way)

structure Parting (as bs common climbed rest : List Component) : Prop where
  left : as = common ++ climbed
  right : bs = common ++ rest
  longest : ∀ front, front <+: as → front <+: bs → front <+: common

variable {base target path : Text} {cs ds as bs common climbed rest : List Component} {c : Component} {ch : Char}

theorem exists_parting (as bs : List Component) :
    ∃ common, Parting as bs common (afterCommon as bs).1 (afterCommon as bs).2 := by
  fun_induction afterCommon as bs with
  | case1 as b bs ih =>
      obtain ⟨common, h⟩ := ih
      refine ⟨b :: common, congrArg _ h.left, congrArg _ h.right, fun front has hbs => ?_⟩
      cases front with
      | nil => exact List.nil_prefix
      | cons d front =>
          obtain ⟨hd, hfront⟩ := List.cons_prefix_cons.1 has
          exact List.cons_prefix_cons.2 ⟨hd, h.longest front hfront (List.cons_prefix_cons.1 hbs).2⟩
  | case2 a as b bs hne =>
      refine ⟨[], rfl, rfl, fun front has hbs => ?_⟩
      cases front with
      | nil => exact List.nil_prefix
      | cons d front =>
          obtain ⟨rfl, _⟩ := List.cons_prefix_cons.1 has
          exact absurd (List.cons_prefix_cons.1 hbs).1 hne
  | case3 as bs hends =>
      refine ⟨[], rfl, rfl, fun front has hbs => ?_⟩
      cases front with
      | nil => exact List.nil_prefix
      | cons d front =>
          obtain ⟨as', rfl⟩ := has
          obtain ⟨bs', rfl⟩ := hbs
          exact (hends d (front ++ as') d (front ++ bs') rfl rfl).elim

namespace Parting

theorem common_prefix_left (h : Parting as bs common climbed rest) : common <+: as := ⟨climbed, h.left.symm⟩

theorem common_prefix_right (h : Parting as bs common climbed rest) : common <+: bs := ⟨rest, h.right.symm⟩

end Parting

theorem plainComponents_of_isAbsolute (h : isAbsolute path = true) :
    ∃ cs, plainComponents path = .root :: cs ∧ .root ∉ cs :=
  ⟨(steps path).map Component.ofPiece, by simp [plainComponents_eq, h], root_not_mem_map_ofPiece⟩

theorem Parting.root_not_mem_rest (h : Parting (plainComponents base) (plainComponents target) common climbed rest)
    (hkind : isAbsolute base = isAbsolute target) : .root ∉ rest := by
  cases habsolute : isAbsolute target with
  | true =>
      -- both paths start at the root, so it is among what they share
      obtain ⟨as, has, _⟩ := plainComponents_of_isAbsolute (hkind.trans habsolute)
      obtain ⟨bs, hbs, hroot⟩ := plainComponents_of_isAbsolute habsolute
      obtain ⟨cs, hcommon⟩ := h.longest [.root] ⟨as, has.symm⟩ ⟨bs, hbs.symm⟩
      have hright := h.right
      rw [hbs, ← hcommon] at hright
      rw [(List.cons.inj hright).2] at hroot
      exact fun hmem => hroot (List.mem_append_right _ hmem)
  | false =>
      intro hmem
      have hroot : .root ∈ plainComponents target := h.right ▸ List.mem_append_right _ hmem
      rw [root_mem_plainComponents, habsolute] at hroot
      cases hroot

theorem climb_eq_ofComponents (climbed : List Component) :
    climbed.foldl (fun path _ => push path Component.up.text) [] =
      ofComponents (List.replicate climbed.length .up) := by
  have hfold : ∀ path, climbed.foldl (fun path _ => push path Component.up.text) path =
      (List.replicate climbed.length Component.up).foldl (fun path c => push path c.text) path := by
    induction climbed with
    | nil => exact fun _ => rfl
    | cons c climbed ih => exact fun path => ih _
  exact hfold []

/-- A step up for each component that the base has behind the common ones, then what the target has there. -/
theorem plainComponents_relative (hkind : isAbsolute base = isAbsolute target) :
    ∃ common climbed rest, Parting (plainComponents base) (plainComponents target) common climbed rest ∧
      plainComponents (relative base target) = List.replicate climbed.length .up ++ rest ∧ .root ∉ rest := by
  obtain ⟨common, h⟩ := exists_parting (plainComponents base) (plainComponents target)
  rw [relative]
  generalize afterCommon (plainComponents base) (plainComponents target) = ways at h ⊢
  obtain ⟨climbed, rest⟩ := ways
  have hroot := h.root_not_mem_rest hkind
  have hup : ∀ c ∈ List.replicate climbed.length Component.up, c ≠ .root ∧ c.Sole := by
    intro c hc
    rw [(List.mem_replicate.1 hc).2]
    exact ⟨by decide, rfl⟩
  have hrest : ∀ c ∈ rest, c ≠ .root ∧ c.Sole := by
    intro c hc
    have htarget : c ∈ plainComponents target := h.right ▸ List.mem_append_right _ hc
    exact ⟨fun hc' => hroot (hc' ▸ hc), sole_of_mem htarget⟩
  -- a rest that started at the root would replace the steps up
  have hrelative : isAbsolute (ofComponents rest) ≠ true := by
    intro habsolute
    have hmem := root_mem_plainComponents.2 habsolute
    rw [plainComponents_ofComponents hrest] at hmem
    exact hroot hmem
  refine ⟨common, climbed, rest, h, ?_, hroot⟩
  rw [plainComponents_push, if_neg hrelative, climb_eq_ofComponents, plainComponents_ofComponents hup,
    plainComponents_ofComponents hrest]

theorem isAbsolute_relative (hkind : isAbsolute base = isAbsolute target) :
    isAbsolute (relative base target) = false := by
  obtain ⟨common, climbed, rest, _, hway, hroot⟩ := plainComponents_relative hkind
  by_contra habsolute
  have hmem := root_mem_plainComponents.2 (by simpa using habsolute)
  rw [hway, List.mem_append, or_iff_left hroot] at hmem
  cases List.eq_of_mem_replicate hmem

theorem mem_of_mem_push {step : Text} (hslash : ch ≠ '/') (h : ch ∈ push path step) : ch ∈ path ∨ ch ∈ step := by
  unfold push at h
  split at h
  · exact .inr h
  · split at h
    · exact List.mem_append.1 h
    · exact (List.mem_append.1 h).imp_right fun h => (List.mem_cons.1 h).resolve_left hslash

theorem mem_of_mem_ofComponents (hslash : ch ≠ '/') (h : ch ∈ ofComponents cs) : ∃ c ∈ cs, ch ∈ c.text := by
  have hfold : ∀ path, ch ∈ cs.foldl (fun path c => push path c.text) path → ch ∈ path ∨ ∃ c ∈ cs, ch ∈ c.text := by
    clear h
    induction cs with
    | nil => exact fun path h => .inl h
    | cons c cs ih =>
        intro path h
        rcases ih _ h with h | ⟨d, hd, h⟩
        · exact (mem_of_mem_push hslash h).imp_right fun h => ⟨c, List.mem_cons_self, h⟩
        · exact .inr ⟨d, List.mem_cons_of_mem c hd, h⟩
  exact (hfold [] h).resolve_left (List.not_mem_nil (a := ch))

theorem mem_of_mem_text (hslash : ch ≠ '/') (hc : c ∈ plainComponents path) (h : ch ∈ c.text) : ch ∈ path := by
  rw [plainComponents_eq, List.mem_append] at hc
  rcases hc with hc | hc
  · split at hc
    · rw [List.mem_singleton.1 hc] at h
      exact absurd (List.mem_singleton.1 h) hslash
    · cases hc
  · obtain ⟨p, hp, rfl⟩ := List.mem_map.1 hc
    rw [Component.text_ofPiece] at h
    exact (Text.mem_of_mem_pieces (mem_steps.1 hp).1 h).1

theorem mem_of_mem_relative (hslash : ch ≠ '/') (hdot : ch ≠ '.') (h : ch ∈ relative base target) : ch ∈ target := by
  obtain ⟨common, hparting⟩ := exists_parting (plainComponents base) (plainComponents target)
  rcases mem_of_mem_push hslash h with h | h
  · rw [climb_eq_ofComponents] at h
    obtain ⟨c, hc, hch⟩ := mem_of_mem_ofComponents hslash h
    rw [(List.mem_replicate.1 hc).2] at hch
    exact absurd hch (by simp [Component.text, hdot])
  · obtain ⟨c, hc, hch⟩ := mem_of_mem_ofComponents hslash h
    exact mem_of_mem_text hslash (hparting.right ▸ List.mem_append_right common hc) hch

theorem plainComponents_reference (hkind : isAbsolute base = isAbsolute target) (h : '\\' ∉ target) :
    plainComponents (reference target base) = plainComponents (relative base target) := by
  have hway : ((relative base target).map fun c => if c = '\\' then '/' else c) = relative base target := by
    refine (List.map_congr_left fun c hc => if_neg ?_).trans (List.map_id' _)
    rintro rfl
    exact h (mem_of_mem_relative (by decide) (by decide) hc)
  have hdotted : plainComponents ("./".toList ++ relative base target) = plainComponents (relative base target) := by
    have hsteps : steps ("./".toList ++ relative base target) = steps (relative base target) :=
      steps_append_slash ['.'] _
    rw [plainComponents_eq, plainComponents_eq, hsteps, isAbsolute_relative hkind]
    rfl
  rw [reference, hway]
  split
  · rfl
  · exact hdotted

theorem goAll_append (cs ds es : List Component) : goAll cs (ds ++ es) = goAll (goAll cs ds) es :=
  List.foldl_append

theorem goAll_names (h : ∀ c ∈ ds, c.isName = true) (cs : List Component) : goAll cs ds = cs ++ ds := by
  induction ds generalizing cs with
  | nil => exact (List.append_nil cs).symm
  | cons d ds ih =>
      obtain ⟨s, rfl⟩ : ∃ s, d = .name s := by
        have hd := h d List.mem_cons_self
        cases d with
        | name s => exact ⟨s, rfl⟩
        | root | here | up => cases hd
      have hrest := ih (fun c hc => h c (List.mem_cons_of_mem _ hc)) (cs ++ [.name s])
      rwa [List.append_assoc, List.singleton_append] at hrest

theorem goAll_filter_ne_here (cs ds : List Component) : goAll cs (ds.filter (· != .here)) = goAll cs ds := by
  induction ds generalizing cs with
  | nil => rfl
  | cons d ds ih =>
      by_cases hd : d = .here
      · subst hd
        exact ih cs
      · rw [List.filter_cons_of_pos (by simpa using hd)]
        exact ih (goOn cs d)

theorem resolve_eq (directory way : Text) : resolve directory way = goAll (lexical directory) (plainComponents way) :=
  (goAll_filter_ne_here _ _).symm

theorem goOn_up_eq_append_iff (hds : .up ∉ ds) {names : List Component} (hnames : ∀ c ∈ names, c.isName = true) :
    goOn cs .up = ds ++ names ↔ ∃ s, cs = ds ++ names ++ [.name s] := by
  have hup : .up ∉ ds ++ names := by
    intro h
    rcases List.mem_append.1 h with h | h
    · exact hds h
    · cases hnames _ h
  rw [goOn]
  split
  · next hname =>
      obtain ⟨c, hlast, hc⟩ := (Option.any_eq_true _ _).1 hname
      obtain ⟨front, rfl⟩ := List.getLast?_eq_some_iff.1 hlast
      rw [List.dropLast_concat]
      constructor
      · rintro rfl
        cases c with
        | name s => exact ⟨s, rfl⟩
        | root | here | up => cases hc
      · rintro ⟨s, h⟩
        exact (List.append_inj' h rfl).1
  · next hname =>
      constructor
      · intro h
        exact absurd (h ▸ List.mem_append_right cs (List.mem_singleton_self _)) hup
      · rintro ⟨s, rfl⟩
        exact absurd (by simp [Component.isName]) hname

theorem goAll_climb_eq_iff (n : Nat) (hds : .up ∉ ds) : goAll cs (List.replicate n .up) = ds ↔
    ∃ names : List Component, names.length = n ∧ (∀ c ∈ names, c.isName = true) ∧ cs = ds ++ names := by
  induction n generalizing cs with
  | zero =>
      constructor
      · intro h
        exact ⟨[], rfl, fun c hc => (List.not_mem_nil hc).elim, h.trans (List.append_nil ds).symm⟩
      · rintro ⟨names, hlength, _, h⟩
        rw [List.eq_nil_of_length_eq_zero hlength, List.append_nil] at h
        exact h
  | succ n ih =>
      -- the first step up takes the last name away, so what is left must have the others behind
      rw [List.replicate_succ, goAll, List.foldl_cons, ← goAll, ih]
      constructor
      · rintro ⟨names, hlength, hnames, h⟩
        obtain ⟨s, hs⟩ := (goOn_up_eq_append_iff hds hnames).1 h
        refine ⟨names ++ [.name s], by simp [hlength], fun c hc => ?_, by rw [hs, List.append_assoc]⟩
        rcases List.mem_append.1 hc with hc | hc
        · exact hnames c hc
        · rw [List.mem_singleton.1 hc]
          rfl
      · rintro ⟨names, hlength, hnames, h⟩
        rcases List.eq_nil_or_concat names with rfl | ⟨front, c, rfl⟩
        · cases hlength
        · have hfront : ∀ d ∈ front, d.isName = true := fun d hd => hnames d (by simp [hd])
          refine ⟨front, by simpa using hlength, hfront, (goOn_up_eq_append_iff hds hfront).2 ?_⟩
          have hc := hnames c (by simp)
          cases c with
          | name s => exact ⟨s, by simpa using h⟩
          | root | here | up => cases hc

end RouteTable.Path
