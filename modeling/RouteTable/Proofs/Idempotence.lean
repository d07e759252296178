import RouteTable.Proofs.FixedPoint

namespace RouteTable

open Segment

namespace PatternKind

theorem isOptional_of_iff (s : Text) :
    (of s).isOptional = true ↔ Text.startsWith '*' s = false ∧ ':' ∈ s ∧ ['?'] <:+ s := by
  have hend : Text.endsWith '?' s = true ↔ ['?'] <:+ s := by
    rw [Text.endsWith, beq_iff_eq, List.getLast?_eq_some_iff]
    exact exists_congr fun front => eq_comm
  unfold of
  split
  · next hstar => simp [isOptional, hstar]
  · next hstar =>
      split
      · next hcolon => simp [isOptional, hstar, hend, List.contains_iff_mem.1 hcolon]
      · next hcolon => simp [isOptional, List.contains_iff_mem.not.1 hcolon]

end PatternKind

namespace Segment

def DoublyMarked (s : Text) : Prop := ':' ∈ s ∧ Text.startsWith '*' s = false ∧ ['?', '?'] <:+ s

instance (s : Text) : Decidable (DoublyMarked s) := inferInstanceAs (Decidable (_ ∧ _ ∧ _))

theorem doublyMarked_of_isOptional {s : Text} (h : (PatternKind.of (required s)).isOptional = true) :
    DoublyMarked s := by
  rcases required_cases s with hs | ⟨front, rfl, _, hs⟩
  · have hnot := required_eq_self_iff.1 hs
    rw [← hs, h] at hnot
    cases hnot
  · rw [hs] at h
    obtain ⟨hstar, hcolon, front', rfl⟩ := (PatternKind.isOptional_of_iff front).1 h
    refine ⟨List.mem_append_left _ hcolon, ?_, front', by simp⟩
    cases front' <;> exact hstar

theorem isOptional_iterate_required {s : Text} (h : ¬DoublyMarked s) {n : Nat} (hn : 0 < n) :
    (PatternKind.of (required^[n] s)).isOptional = false := by
  have hnot : (PatternKind.of (required s)).isOptional = false := by
    by_contra hoptional
    exact h (doublyMarked_of_isOptional (by simpa using hoptional))
  obtain ⟨n, rfl⟩ := Nat.exists_eq_succ_of_ne_zero hn.ne'
  rw [Function.iterate_succ_apply, Function.iterate_fixed (required_eq_self_iff.2 hnot)]
  exact hnot

end Segment

namespace Route

variable {nested : Bool} {r : Route}

/-- A path that one pass can bring into its normal form. -/
structure WellFormed (nested : Bool) (r : Route) : Prop where
  slash : nested = true → r.path ≠ ['/'] ∧ ¬['/', '/'] <+: r.path
  marked : ∀ s ∈ r.segments, ¬DoublyMarked s

instance (nested : Bool) (r : Route) : Decidable (r.WellFormed nested) :=
  decidable_of_iff ((nested = true → r.path ≠ ['/'] ∧ ¬['/', '/'] <+: r.path) ∧ ∀ s ∈ r.segments, ¬DoublyMarked s)
    ⟨fun h => ⟨h.1, h.2⟩, fun h => ⟨h.slash, h.marked⟩⟩

theorem startsWith_withoutSlash {path : Text} (h : ¬['/', '/'] <+: path) :
    Text.startsWith '/' (withoutSlash path) = false := by
  unfold withoutSlash
  split
  · next rest =>
      cases rest with
      | nil => rfl
      | cons c rest =>
          have hc : c ≠ '/' := fun hc => h ⟨rest, by rw [hc]; rfl⟩
          simpa [Text.startsWith] using hc
  · next hnone =>
      cases path with
      | nil => rfl
      | cons c path =>
          have hc : c ≠ '/' := fun hc => hnone path (hc ▸ rfl)
          simpa [Text.startsWith] using hc

theorem segments_normal (prefixes : List (List Text)) (holdsIndex : Bool) (h : '?' ∈ r.barePath nested) :
    (r.normal prefixes nested holdsIndex).segments = requireAll r.origin prefixes r.segments := by
  have hpath : (r.normal prefixes nested holdsIndex).path = (if nested then [] else ['/']) ++
      Text.joinWith '/' (requireAll r.origin prefixes (Text.parts Path.isSlash (r.barePath nested))) :=
    if_pos (List.contains_iff_mem.2 h)
  rw [segments, hpath, Text.parts_lead_joinWith, parts_barePath, segments]
  exact isSegment_of_mem_requireAll _ _ fun _ => isSegment_of_mem_parts

namespace WellFormed

variable (h : r.WellFormed nested)
include h

theorem settled (prefixes : List (List Text)) (holdsIndex : Bool) :
    (r.normal prefixes nested holdsIndex).Settled prefixes nested where
  relative := by
    rintro rfl
    have hpath : (r.normal prefixes true holdsIndex).path = r.normalPath prefixes true := rfl
    rw [hpath]
    rcases normalPath_cases prefixes true r with hbare | ⟨_, hjoined⟩
    · rw [hbare]
      exact startsWith_withoutSlash (h.slash rfl).2
    · rw [hjoined]
      exact startsWith_join_requireAll r.origin prefixes r.path
  required := by
    by_cases hmark : '?' ∈ r.barePath nested
    · rintro ⟨i, s, hi, hmem, hs, hoptional⟩
      rw [segments_normal prefixes holdsIndex hmark] at hs
      obtain ⟨s₀, hs₀, rfl⟩ := Option.map_eq_some_iff.1 ((getElem?_requireAll r.origin prefixes _ hi).symm.trans hs)
      have hrequired := isOptional_iterate_required (h.marked s₀ (List.mem_of_getElem? hs₀)) (List.count_pos_iff.2 hmem)
      exact Bool.false_ne_true (hrequired.symm.trans hoptional)
    · have hpath : (r.normal prefixes nested holdsIndex).path = r.barePath nested :=
        if_neg fun hc => hmark (List.contains_iff_mem.1 hc)
      rw [segments, hpath]
      exact not_leavesOptional_of_not_mem hmark

theorem path_eq_nil {prefixes : List (List Text)} (hnested : nested = true)
    (hpath : r.normalPath prefixes nested = []) : r.path = [] := by
  subst hnested
  exact ((normalPath_eq_nil_iff fun htop => by cases htop).1 hpath).2.resolve_right (h.slash rfl).1

end WellFormed

end Route

namespace Forest

variable {nested : Bool} {f : Forest Route}

def WellFormed (nested : Bool) (f : Forest Route) : Prop :=
  ∀ family ∈ f.families, ∀ r ∈ family.2, r.WellFormed (nested || family.1.isSome)

instance (nested : Bool) (f : Forest Route) : Decidable (f.WellFormed nested) :=
  inferInstanceAs (Decidable (∀ family ∈ f.families, ∀ r ∈ family.2, r.WellFormed (nested || family.1.isSome)))

namespace WellFormed

variable (h : f.WellFormed nested)
include h

theorem settled {above' : Option Route} {siblings' : List Route} {r' : Route}
    (hf' : (above', siblings') ∈ (f.normalize nested).families) (hr' : r' ∈ siblings') :
    r'.Settled (Route.folders siblings') (nested || above'.isSome) := by
  obtain ⟨above, siblings, hf, hfamily⟩ := exists_normalizesFamily hf'
  obtain ⟨r, hr, holdsIndex, rfl⟩ := exists_mem_of_forall₂ hfamily.siblings hr'
  rw [hfamily.folders_eq, ← hfamily.isSome_above]
  exact (h _ hf r hr).settled _ _

theorem name_eq_none {p r' : Route} (hchild : (f.normalize nested).IsChild (some p) r') (hpath : r'.path = []) :
    p.name = none := by
  obtain ⟨siblings', hf', hr'⟩ := hchild
  obtain ⟨above, siblings, hf, hfamily⟩ := exists_normalizesFamily hf'
  obtain ⟨p₀, prefixes, nested', rfl, rfl⟩ := hfamily.exists_above
  obtain ⟨r, hr, holdsIndex, rfl⟩ := exists_mem_of_forall₂ hfamily.siblings hr'
  have hnested : (nested || (some p₀).isSome) = true := Bool.or_true nested
  have hempty : r.path = [] := (h _ hf r hr).path_eq_nil hnested hpath
  exact if_pos (List.any_eq_true.2 ⟨r, hr, List.isEmpty_iff.2 hempty⟩)

theorem isNormal : (f.normalize nested).IsNormal nested where
  relative _ _ hf' hn _ hr' := (h.settled hf' hr').relative hn
  unnamed _ _ hchild hpath := h.name_eq_none hchild hpath
  required _ _ hf' _ hr' := (h.settled hf' hr').required

end WellFormed

/-- One pass makes a well-formed forest normal, and a second one changes nothing. -/
theorem normalize_normalize_of_wellFormed (nested : Bool) (f : Forest Route) (h : f.WellFormed nested) :
    (f.normalize nested).IsNormal nested ∧ (f.normalize nested).normalize nested = f.normalize nested :=
  ⟨h.isNormal, (normalize_normalize_eq_iff nested f).2 h.isNormal⟩

/-- Two index pages beside a parameter, and keys and bases that have nothing to do with the paths. -/
theorem normalize_normalize_handmade :
    let index : Route := ⟨some "index".toList, "/".toList, none, [], ⟨["index".toList], 0⟩⟩
    let home : Route := ⟨none, "home".toList, none, [], ⟨["index".toList], 4⟩⟩
    let user : Route := ⟨some "user".toList, "//:id?/:tab?".toList, none, [], ⟨["a".toList, "b".toList], 0⟩⟩
    let start : Route := ⟨some "user_index".toList, [], none, [], ⟨["user".toList, "index".toList], 9⟩⟩
    let post : Route := ⟨some "post".toList, "/:post?".toList, none, [], ⟨["user".toList, "x".toList], 1⟩⟩
    let f : Forest Route :=
      .cons index .nil (.cons home .nil (.cons user (.cons start .nil (.cons post .nil .nil)) .nil))
    let user' : Route := { user with name := none, path := "/:id/:tab?".toList }
    let start' : Route := { start with name := some "user".toList }
    let post' : Route := { post with path := ":post".toList }
    f.WellFormed false ∧
      f.normalize false =
        .cons index .nil (.cons home .nil (.cons user' (.cons start' .nil (.cons post' .nil .nil)) .nil)) ∧
      (f.normalize false).IsNormal false ∧ (f.normalize false).normalize false = f.normalize false := by
  intro index home user start post f user' start' post'
  have hwell : f.WellFormed false := by decide
  exact ⟨hwell, rfl, normalize_normalize_of_wellFormed false f hwell⟩

end Forest

end RouteTable
