import RouteTable.Proofs.SiblingOrder

namespace RouteTable

namespace Segment

def IsStatic (s : Text) : Prop := Path.IsSegment s ∧ ':' ∉ s ∧ Text.startsWith '*' s = false

def IsParameter (s : Text) : Prop := Text.startsWith ':' s = true ∧ Text.endsWith '?' s = false

def wildcard : Text := ['*']

/-- Whether a segment answers one part of a URL. -/
def takes (s part : Text) : Bool := Text.startsWith ':' s || s == part

variable {s part : Text}

theorem IsStatic.takes_iff (h : IsStatic s) : takes s part = true ↔ s = part := by
  obtain ⟨⟨hne, _⟩, hcolon, _⟩ := h
  obtain ⟨c, s, rfl⟩ := List.exists_cons_of_ne_nil hne
  have hc : c ≠ ':' := fun hc => hcolon (hc ▸ List.mem_cons_self)
  simp [takes, Text.startsWith, hc]

theorem IsParameter.takes (h : IsParameter s) (part : Text) : takes s part = true := by
  rw [Segment.takes, h.1, Bool.true_or]

theorem IsStatic.ne_wildcard (h : IsStatic s) : s ≠ wildcard := by
  rintro rfl
  cases h.2.2

theorem IsParameter.ne_wildcard (h : IsParameter s) : s ≠ wildcard := by
  rintro rfl
  cases h.1

theorem IsStatic.rank_eq (h : IsStatic s) : (PatternKind.of s).rank = 0 := by
  obtain ⟨_, hcolon, hstar⟩ := h
  simp [PatternKind.of, hstar, hcolon, PatternKind.rank]

theorem IsParameter.rank_eq (h : IsParameter s) : (PatternKind.of s).rank = 1 := by
  obtain ⟨hcolon, _⟩ := h
  cases s with
  | nil => cases hcolon
  | cons c s =>
      have hc : c = ':' := by simpa [Text.startsWith] using hcolon
      subst hc
      simp [PatternKind.of, Text.startsWith, PatternKind.rank]

end Segment

namespace Route

open Segment

def IsUrl (url : List Text) : Prop := ∀ part ∈ url, Path.IsSegment part

/-- Segments without a parameter that may be left out, and with a wildcard at the end only. -/
inductive Definite : List Text → Prop
  | nil : Definite []
  | static {s : Text} {segments : List Text} : IsStatic s → Definite segments → Definite (s :: segments)
  | parameter {s : Text} {segments : List Text} : IsParameter s → Definite segments → Definite (s :: segments)
  | wildcard : Definite [wildcard]

/-- Whether segments answer a URL: each answers one part, and a wildcard at the end all that are left. -/
def answers : (segments url : List Text) → Bool
  | [], url => url.isEmpty
  | s :: segments, url =>
    if s = wildcard ∧ segments = [] then true
    else match url with
      | [] => false
      | part :: url => takes s part && answers segments url

/-- Segments that answer some of the URLs of others, but not all of them. -/
structure Narrower (p q : List Text) : Prop where
  within : ∀ url, IsUrl url → answers p url = true → answers q url = true
  strict : ∃ url, IsUrl url ∧ answers q url = true ∧ answers p url = false

variable {s t part : Text} {p q url : List Text}

theorem answers_cons_nil (h : s ≠ wildcard) (segments : List Text) : answers (s :: segments) [] = false := by
  rw [answers, if_neg fun hs => h hs.1]

theorem answers_cons_cons (h : s ≠ wildcard) (segments : List Text) (part : Text) (url : List Text) :
    answers (s :: segments) (part :: url) = (takes s part && answers segments url) := by
  rw [answers, if_neg fun hs => h hs.1]

theorem answers_cons_cons_iff (h : s ≠ wildcard) :
    answers (s :: p) (part :: url) = true ↔ takes s part = true ∧ answers p url = true := by
  rw [answers_cons_cons h, Bool.and_eq_true]

theorem isUrl_cons : IsUrl (part :: url) ↔ Path.IsSegment part ∧ IsUrl url := List.forall_mem_cons

theorem isSegment_letter : Path.IsSegment ['x'] := by
  unfold Path.IsSegment
  decide

theorem Definite.exists_answers (h : Definite p) : ∃ url, IsUrl url ∧ answers p url = true := by
  induction h with
  | nil => exact ⟨[], List.forall_mem_nil _, rfl⟩
  | @static s segments hs _ ih =>
      obtain ⟨url, hurl, hanswers⟩ := ih
      exact ⟨s :: url, isUrl_cons.2 ⟨hs.1, hurl⟩,
        (answers_cons_cons_iff hs.ne_wildcard).2 ⟨hs.takes_iff.2 rfl, hanswers⟩⟩
  | @parameter s segments hs _ ih =>
      obtain ⟨url, hurl, hanswers⟩ := ih
      exact ⟨['x'] :: url, isUrl_cons.2 ⟨isSegment_letter, hurl⟩,
        (answers_cons_cons_iff hs.ne_wildcard).2 ⟨hs.takes _, hanswers⟩⟩
  | wildcard => exact ⟨[], List.forall_mem_nil _, rfl⟩

theorem Narrower.behind (h : Narrower (s :: p) (t :: q)) (hs : s ≠ wildcard) (ht : t ≠ wildcard)
    (hpart : Path.IsSegment part) (htakes : takes s part = true) (hsame : ∀ part, takes s part = takes t part) :
    Narrower p q where
  within url hurl hanswers := by
    have hwithin := h.within (part :: url) (isUrl_cons.2 ⟨hpart, hurl⟩)
      ((answers_cons_cons_iff hs).2 ⟨htakes, hanswers⟩)
    exact ((answers_cons_cons_iff ht).1 hwithin).2
  strict := by
    obtain ⟨url, hurl, hq, hp⟩ := h.strict
    cases url with
    | nil =>
        rw [answers_cons_nil ht] at hq
        cases hq
    | cons part url =>
        obtain ⟨htakes, hq⟩ := (answers_cons_cons_iff ht).1 hq
        rw [answers_cons_cons hs, hsame, htakes, Bool.true_and] at hp
        exact ⟨url, (isUrl_cons.1 hurl).2, hq, hp⟩

theorem Narrower.ne_nil (h : Narrower (s :: p) q) (hp : Definite (s :: p)) : q ≠ [] := by
  rintro rfl
  have hnil : ∀ url, IsUrl url → answers (s :: p) url = true → url = [] := by
    intro url hurl hanswers
    simpa [answers] using h.within url hurl hanswers
  by_cases hs : s = wildcard ∧ p = []
  · obtain ⟨rfl, rfl⟩ := hs
    cases hnil [['x']] (isUrl_cons.2 ⟨isSegment_letter, List.forall_mem_nil _⟩) rfl
  · obtain ⟨url, hurl, hanswers⟩ := hp.exists_answers
    rw [hnil url hurl hanswers, answers, if_neg hs] at hanswers
    cases hanswers

theorem Narrower.eq_of_static (h : Narrower (s :: p) (t :: q)) (hs : IsStatic s) (hp : Definite p) (ht : IsStatic t) :
    s = t := by
  obtain ⟨url, hurl, hanswers⟩ := hp.exists_answers
  have hwithin := h.within (s :: url) (isUrl_cons.2 ⟨hs.1, hurl⟩)
    ((answers_cons_cons_iff hs.ne_wildcard).2 ⟨hs.takes_iff.2 rfl, hanswers⟩)
  exact (ht.takes_iff.1 ((answers_cons_cons_iff ht.ne_wildcard).1 hwithin).1).symm

theorem Narrower.head_eq_wildcard (h : Narrower p (t :: q)) (hp : answers p [] = true) : t = wildcard := by
  by_contra ht
  have hwithin := h.within [] (List.forall_mem_nil _) hp
  rw [answers_cons_nil ht] at hwithin
  cases hwithin

theorem Narrower.not_static_of_parameter (h : Narrower (s :: p) (t :: q)) (hs : IsParameter s) (hp : Definite p) :
    ¬ IsStatic t := by
  intro ht
  obtain ⟨url, hurl, hanswers⟩ := hp.exists_answers
  have hother : Path.IsSegment (t ++ ['x']) := by
    refine ⟨by simp, fun hslash => ?_⟩
    rcases List.mem_append.1 hslash with hslash | hslash
    · exact ht.1.2 hslash
    · exact isSegment_letter.2 hslash
  have hwithin := h.within ((t ++ ['x']) :: url) (isUrl_cons.2 ⟨hother, hurl⟩)
    ((answers_cons_cons_iff hs.ne_wildcard).2 ⟨hs.takes _, hanswers⟩)
  have hsame : t = t ++ ['x'] := ht.takes_iff.1 ((answers_cons_cons_iff ht.ne_wildcard).1 hwithin).1
  simp at hsame

end Route

namespace Precedence

open Segment Route

theorem graded_cons {s : Text} (h : (PatternKind.of s).rank < 2) (segments : List Text) :
    graded (s :: segments) = (PatternKind.of s).rank :: graded segments := by
  have hkind : PatternKind.of s ≠ .wildcard := fun hs => by
    rw [hs] at h
    exact absurd h (Nat.lt_irrefl 2)
  have htail : tail (s :: segments) = tail segments := by
    cases segments with
    | nil => simp [tail, EndsInWildcard, hkind]
    | cons t segments => simp [tail, EndsInWildcard, List.getLast?_cons]
  rw [graded, htail]
  rfl

theorem compareLex_graded_of_rank_lt {s t : Text} (h : (PatternKind.of s).rank < (PatternKind.of t).rank)
    (p q : List Text) : List.compareLex Order.nat (graded (s :: p)) (graded (t :: q)) = .lt := by
  have hlt : Order.nat (PatternKind.of s).rank (PatternKind.of t).rank = .lt := Order.nat_eq_lt.2 h
  rw [graded, graded, PatternKind.ranks, PatternKind.ranks, List.map_cons, List.map_cons, List.cons_append,
    List.cons_append, List.compareLex_cons_cons, hlt]
  rfl

theorem compareLex_graded_of_rank_eq {s t : Text} (h : (PatternKind.of s).rank = (PatternKind.of t).rank)
    (hs : (PatternKind.of s).rank < 2) (p q : List Text) :
    List.compareLex Order.nat (graded (s :: p)) (graded (t :: q)) =
      List.compareLex Order.nat (graded p) (graded q) := by
  have heq : Order.nat (PatternKind.of s).rank (PatternKind.of t).rank = .eq := Order.nat_eq_eq.2 h
  rw [graded_cons hs, graded_cons (h ▸ hs), List.compareLex_cons_cons, heq, Ordering.eq_then]

/-- What narrower segments answer is told by smaller ranks, at the first place where the ranks are not the same. -/
theorem compareLex_graded_of_narrower {p q : List Text} (hp : Definite p) (hq : Definite q) (h : Narrower p q) :
    List.compareLex Order.nat (graded p) (graded q) = .lt := by
  induction hp generalizing q with
  | nil =>
      cases hq with
      | nil =>
          obtain ⟨url, _, hyes, hno⟩ := h.strict
          cases hyes.symm.trans hno
      | static ht _ => exact absurd (h.head_eq_wildcard rfl) ht.ne_wildcard
      | parameter ht _ => exact absurd (h.head_eq_wildcard rfl) ht.ne_wildcard
      | wildcard => rfl
  | @static s p hs hp ih =>
      cases hq with
      | nil => exact absurd rfl (h.ne_nil (.static hs hp))
      | @static t q ht hq =>
          cases h.eq_of_static hs hp ht
          have hbehind := h.behind hs.ne_wildcard hs.ne_wildcard hs.1 (hs.takes_iff.2 rfl) fun _ => rfl
          rw [compareLex_graded_of_rank_eq rfl (by rw [hs.rank_eq]; decide)]
          exact ih hq hbehind
      | parameter ht _ => exact compareLex_graded_of_rank_lt (by rw [hs.rank_eq, ht.rank_eq]; decide) _ _
      | wildcard => exact compareLex_graded_of_rank_lt (by rw [hs.rank_eq]; decide) _ _
  | @parameter s p hs hp ih =>
      cases hq with
      | nil => exact absurd rfl (h.ne_nil (.parameter hs hp))
      | static ht _ => exact absurd ht (h.not_static_of_parameter hs hp)
      | @parameter t q ht hq =>
          have hsame : ∀ part, takes s part = takes t part := fun part => by rw [hs.takes, ht.takes]
          have hbehind := h.behind hs.ne_wildcard ht.ne_wildcard isSegment_letter (hs.takes _) hsame
          rw [compareLex_graded_of_rank_eq (by rw [hs.rank_eq, ht.rank_eq]) (by rw [hs.rank_eq]; decide)]
          exact ih hq hbehind
      | wildcard => exact compareLex_graded_of_rank_lt (by rw [hs.rank_eq]; decide) _ _
  | wildcard =>
      cases hq with
      | nil => exact absurd rfl (h.ne_nil .wildcard)
      | static ht _ => exact absurd (h.head_eq_wildcard rfl) ht.ne_wildcard
      | parameter ht _ => exact absurd (h.head_eq_wildcard rfl) ht.ne_wildcard
      | wildcard =>
          obtain ⟨url, _, hyes, hno⟩ := h.strict
          cases hyes.symm.trans hno

end Precedence

namespace Route

variable {a b : Route}

/-- A path of definite segments, with a slash in front of each of them. -/
def IsDefinite (r : Route) : Prop := r.path = '/' :: Text.joinWith '/' r.segments ∧ Definite r.segments

theorem order_eq_lt_of_narrower (ha : a.IsDefinite) (hb : b.IsDefinite) (h : Narrower a.segments b.segments) :
    order a b = .lt := by
  have hgraded := Precedence.compareLex_graded_of_narrower ha.2 hb.2 h
  have hprecedence : Precedence.order (.of a.path) (.of b.path) = .lt := by
    rw [Precedence.of_eq, Precedence.of_eq, Precedence.order, compareLex, Order.on, Order.on, Ordering.then_eq_lt]
    refine .inr ⟨?_, hgraded⟩
    rw [ha.1, hb.1]
    rfl
  rw [order, compareLex, Order.on, hprecedence]
  rfl

theorem find?_ne_of_order_eq_lt {siblings : List Route} (hsorted : siblings.Pairwise fun r s => (order r s).isLE)
    (ha : a ∈ siblings) (hlt : order a b = .lt) {p : Route → Bool} (hp : p a = true) : siblings.find? p ≠ some b := by
  have hself : order a a = .eq := Std.ReflCmp.compare_self
  induction siblings with
  | nil => cases ha
  | cons r siblings ih =>
      obtain ⟨hfirst, hrest⟩ := List.pairwise_cons.1 hsorted
      rw [List.find?_cons]
      split
      · intro hr
        cases hr
        rcases List.mem_cons.1 ha with rfl | ha
        · cases hself.symm.trans hlt
        · have hle := hfirst a ha
          rw [Std.OrientedCmp.gt_of_lt hlt] at hle
          cases hle
      · next hr =>
          rcases List.mem_cons.1 ha with rfl | ha
          · rw [hp] at hr
            cases hr
          · exact ih hrest ha

/-- The more specific route comes first: where one route answers only URLs that another one answers too, and not
all of them, it comes before that one, and in a list in order none of its URLs goes to that one. -/
theorem narrower_comes_first (ha : a.IsDefinite) (hb : b.IsDefinite)
    (hwithin : ∀ url, IsUrl url → answers a.segments url = true → answers b.segments url = true)
    (hstrict : ¬ ∀ url, IsUrl url → answers b.segments url = true → answers a.segments url = true) :
    order a b = .lt ∧ ∀ siblings : List Route, (siblings.Pairwise fun r s => (order r s).isLE) → a ∈ siblings →
      ∀ url, answers a.segments url = true → siblings.find? (fun r => answers r.segments url) ≠ some b := by
  have hnarrower : Narrower a.segments b.segments := by
    refine ⟨hwithin, ?_⟩
    by_contra hnone
    refine hstrict fun url hurl hanswers => ?_
    by_contra hno
    exact hnone ⟨url, hurl, hanswers, by simpa using hno⟩
  have hlt := order_eq_lt_of_narrower ha hb hnarrower
  exact ⟨hlt, fun siblings hsorted hmem url hanswers => find?_ne_of_order_eq_lt hsorted hmem hlt hanswers⟩

/-- Text behind a parameter, before a wildcard behind a parameter, which answers one part alone as well. -/
theorem narrower_comes_first_new :
    let new : Route := ⟨none, "/:lang/new".toList, none, [], ⟨[], 0⟩⟩
    let rest : Route := ⟨none, "/:lang/*".toList, none, [], ⟨[], 0⟩⟩
    new.IsDefinite ∧ rest.IsDefinite ∧
      (∀ url, IsUrl url → answers new.segments url = true → answers rest.segments url = true) ∧
      (¬ ∀ url, IsUrl url → answers rest.segments url = true → answers new.segments url = true) ∧
      order new rest = .lt ∧
      [new, rest].find? (fun r => answers r.segments ["en".toList, "new".toList]) ≠ some rest := by
  intro new rest
  have hlang : Segment.IsParameter ":lang".toList := by
    unfold Segment.IsParameter
    decide
  have hstatic : Segment.IsStatic "new".toList := by
    unfold Segment.IsStatic Path.IsSegment
    decide
  have hnew : new.IsDefinite := ⟨rfl, .parameter hlang (.static hstatic .nil)⟩
  have hrest : rest.IsDefinite := ⟨rfl, .parameter hlang .wildcard⟩
  have hwithin : ∀ url, IsUrl url → answers new.segments url = true → answers rest.segments url = true := by
    intro url _ hanswers
    cases url with
    | nil => cases hanswers
    | cons part url => rfl
  have hstrict : ¬ ∀ url, IsUrl url → answers rest.segments url = true → answers new.segments url = true := by
    intro h
    have hurl : IsUrl ["en".toList] := by
      unfold IsUrl Path.IsSegment
      decide
    exact absurd (h ["en".toList] hurl rfl) (by decide)
  obtain ⟨hlt, hfirst⟩ := narrower_comes_first hnew hrest hwithin hstrict
  have hsorted : [new, rest].Pairwise fun r s => (order r s).isLE := by
    refine List.pairwise_pair.2 ?_
    rw [hlt]
    rfl
  exact ⟨hnew, hrest, hwithin, hstrict, hlt, hfirst _ hsorted List.mem_cons_self _ rfl⟩

end Route

end RouteTable
