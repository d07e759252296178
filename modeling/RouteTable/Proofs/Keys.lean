import Mathlib.Data.List.Forall2
import Mathlib.Data.List.Induction
import RouteTable.Path
import RouteTable.Segment

namespace RouteTable.Segment

theorem key_ofText (raw : Text) : (ofText raw).key = (Text.words raw).headD [] := by
  rw [ofText]
  cases Text.words raw <;> rfl

theorem foldl_extendName {name : Text} (hname : name ≠ []) (keys : List Text) :
    keys.foldl extendName name = Text.joinWith '_' (name :: keys.map plainKey) := by
  induction keys generalizing name with
  | nil => rfl
  | cons key keys ih =>
      have hstep : extendName name key = name ++ '_' :: plainKey key := by
        rw [extendName, if_neg (by simpa using hname), List.append_assoc]
        rfl
      rw [List.foldl_cons, hstep, ih (by simp)]
      cases keys with
      | nil => rfl
      | cons key' keys => exact List.append_assoc name _ _

/-- A name is its keys without their marks, joined by underscores from the first one on that is not empty then. -/
theorem nameOf_eq_joinWith_dropWhile (keys : List Text) :
    nameOf keys = Text.joinWith '_' ((keys.map plainKey).dropWhile List.isEmpty) := by
  induction keys with
  | nil => rfl
  | cons key keys ih =>
      by_cases hkey : plainKey key = []
      · have hstep : nameOf (key :: keys) = nameOf keys := congrArg (keys.foldl extendName) hkey
        rw [hstep, ih, List.map_cons, hkey]
        rfl
      · rw [List.map_cons, List.dropWhile_cons_of_neg (by simpa using hkey)]
        exact foldl_extendName hkey keys

theorem nameOf_concat (keys : List Text) (key : Text) :
    nameOf (keys ++ [key]) = extendName (nameOf keys) key := by
  simp [nameOf]

theorem length_le_length_extendName (name key : Text) :
    name.length + (plainKey key).length ≤ (extendName name key).length := by
  unfold extendName
  split
  · simp_all
  · simp only [List.length_append, List.length_cons, List.length_nil]
    omega

theorem length_nameOf_le_append (keys more : List Text) :
    (nameOf keys).length ≤ (nameOf (keys ++ more)).length := by
  induction more using List.reverseRecOn with
  | nil => simp
  | append_singleton more key ih =>
      rw [← List.append_assoc, nameOf_concat]
      have h := length_le_length_extendName (nameOf (keys ++ more)) key
      omega

theorem length_nameOf_lt_append {keys more : List Text} (hname : nameOf keys ≠ []) (hmore : more ≠ []) :
    (nameOf keys).length < (nameOf (keys ++ more)).length := by
  obtain ⟨key, more, rfl⟩ := List.exists_cons_of_ne_nil hmore
  have hle := length_nameOf_le_append (keys ++ [key]) more
  have hconcat : nameOf (keys ++ [key]) = nameOf keys ++ ['_'] ++ plainKey key := by
    rw [nameOf_concat, extendName, if_neg (by simpa using hname)]
  rw [hconcat, List.append_assoc keys, List.singleton_append] at hle
  simp only [List.length_append, List.length_cons, List.length_nil] at hle
  omega

theorem length_nameOf_lt_index (keys : List Text) :
    (nameOf keys).length < (nameOf (keys ++ [indexKey])).length := by
  rw [nameOf_concat]
  have h := length_le_length_extendName (nameOf keys) indexKey
  have hlen : (plainKey indexKey).length = 5 := rfl
  omega

theorem required_cases (s : Text) :
    required s = s ∨ ∃ front, s = front ++ ['?'] ∧ ':' ∈ front ∧ required s = front := by
  by_cases h : (PatternKind.of s).isOptional
  · refine .inr ?_
    have hr : required s = s.dropLast := by simp [required, h]
    unfold PatternKind.of at h
    split at h
    · cases h
    · split at h
      · next hcolon =>
          obtain ⟨front, rfl⟩ := List.getLast?_eq_some_iff.1
            (by simpa [PatternKind.isOptional, Text.endsWith] using h : s.getLast? = some '?')
          refine ⟨front, rfl, ?_, by simpa using hr⟩
          simpa using hcolon
      · cases h
  · exact .inl (by simp [required, h])

theorem required_ne_nil {s : Text} (h : s ≠ []) : required s ≠ [] := by
  rcases required_cases s with hs | ⟨front, _, hcolon, hs⟩
  · rwa [hs]
  · rw [hs]
    exact List.ne_nil_of_mem hcolon

theorem mem_of_mem_required {c : Char} {s : Text} (h : c ∈ required s) : c ∈ s := by
  rcases required_cases s with hs | ⟨front, he, _, hs⟩
  · rwa [hs] at h
  · rw [hs] at h
    exact he ▸ List.mem_append_left _ h

theorem required_eq_self {s : Text} (h : '?' ∉ s) : required s = s := by
  rcases required_cases s with hs | ⟨front, rfl, _, _⟩
  · exact hs
  · simp at h

theorem pattern_cases (key : Text) :
    (∃ name, key = '_' :: name ∧ plainKey key = name ∧ pattern key = ':' :: name ++ ['?']) ∨
      plainKey key = key ∧ pattern key = key := by
  unfold plainKey pattern
  split
  · next name => exact .inl ⟨name, rfl, rfl, rfl⟩
  · exact .inr ⟨rfl, rfl⟩

theorem pattern_ne_nil {key : Text} (h : key ≠ []) : pattern key ≠ [] := by
  rcases pattern_cases key with ⟨name, _, _, hp⟩ | ⟨_, hp⟩
  · simp [hp]
  · rwa [hp]

theorem mem_of_mem_pattern {c : Char} {key : Text} (hc : c ≠ ':') (hq : c ≠ '?') (h : c ∈ pattern key) :
    c ∈ key := by
  rcases pattern_cases key with ⟨name, rfl, _, hp⟩ | ⟨_, hp⟩
  · simp only [hp, List.mem_append, List.mem_cons, hc, hq, List.not_mem_nil, or_false, false_or] at h
    exact List.mem_cons_of_mem _ h
  · rwa [hp] at h

/-- A segment that stands for a key, its parameter being required or not. -/
def Spells (segment key : Text) : Prop := segment = pattern key ∨ segment = required (pattern key)

theorem count_of_spells {c : Char} (hc : c ≠ ':') (hq : c ≠ '?') {segment key : Text}
    (h : Spells segment key) : segment.count c = (plainKey key).count c := by
  have hpattern : (pattern key).count c = (plainKey key).count c := by
    rcases pattern_cases key with ⟨name, rfl, hk, hp⟩ | ⟨hk, hp⟩
    · simp [hk, hp, hc.symm, hq.symm]
    · rw [hk, hp]
  have hrequired : (required (pattern key)).count c = (pattern key).count c := by
    rcases required_cases (pattern key) with hs | ⟨front, he, _, hs⟩
    · rw [hs]
    · rw [hs, he]
      simp [hq.symm]
  rcases h with rfl | rfl
  · exact hpattern
  · exact hrequired.trans hpattern

theorem length_of_spells {segment key : Text} (h : Spells segment key) :
    segment.length ≤ (pattern key).length ∧ (pattern key).length ≤ segment.length + 1 := by
  rcases h with rfl | rfl
  · omega
  · rcases required_cases (pattern key) with hs | ⟨front, he, _, hs⟩
    · rw [hs]
      omega
    · rw [hs, he]
      simp

theorem eq_of_spells {segment key key' : Text} (h : Spells segment key) (h' : Spells segment key')
    (hplain : plainKey key = plainKey key') : key = key' := by
  have hlen := length_of_spells h
  have hlen' := length_of_spells h'
  rcases pattern_cases key with ⟨x, rfl, hk, hp⟩ | ⟨hk, hp⟩
  · rcases pattern_cases key' with ⟨y, rfl, hk', _⟩ | ⟨hk', hp'⟩
    · rw [hk, hk'] at hplain
      rw [hplain]
    · rw [hk, hk'] at hplain
      subst hplain
      simp only [hp, hp', List.length_append, List.length_cons, List.length_nil] at hlen hlen'
      omega
  · rcases pattern_cases key' with ⟨y, rfl, hk', hp'⟩ | ⟨hk', _⟩
    · rw [hk, hk'] at hplain
      subst hplain
      simp only [hp, hp', List.length_append, List.length_cons, List.length_nil] at hlen hlen'
      omega
    · rwa [hk, hk'] at hplain

theorem count_ne_of_append_cons {sep : Char} {a u v : Text} (h : u = a ++ sep :: v) :
    u.count sep ≠ v.count sep := by
  rw [h, List.count_append, List.count_cons_self]
  omega

theorem append_cons_inj_of_count {sep : Char} {a b u v : Text} (h : a ++ sep :: u = b ++ sep :: v)
    (hcount : u.count sep = v.count sep) : a = b ∧ u = v := by
  rcases List.append_eq_append_iff.1 h with ⟨c, rfl, hc⟩ | ⟨c, rfl, hc⟩
  · cases c with
    | nil => exact ⟨by simp, by simpa using hc⟩
    | cons d c => exact absurd hcount (count_ne_of_append_cons (List.cons.inj hc).2)
  · cases c with
    | nil => exact ⟨by simp, by simpa using hc.symm⟩
    | cons d c => exact absurd hcount (count_ne_of_append_cons (List.cons.inj hc).2).symm

def Alike (key key' : Text) : Prop := ∃ segment, Spells segment key ∧ Spells segment key'

theorem alike_of_spells {segments keys keys' : List Text} (h : List.Forall₂ Spells segments keys)
    (h' : List.Forall₂ Spells segments keys') : List.Forall₂ Alike keys keys' := by
  induction h generalizing keys' with
  | nil =>
      cases h'
      exact List.Forall₂.nil
  | cons hs _ ih =>
      cases h' with
      | cons hs' h' => exact List.Forall₂.cons ⟨_, hs, hs'⟩ (ih h')

theorem Alike.count_plainKey {c : Char} (hc : c ≠ ':') (hq : c ≠ '?') {key key' : Text}
    (h : Alike key key') : (plainKey key).count c = (plainKey key').count c := by
  obtain ⟨segment, hs, hs'⟩ := h
  exact (count_of_spells hc hq hs).symm.trans (count_of_spells hc hq hs')

theorem Alike.eq_of_plainKey {key key' : Text} (h : Alike key key') (hplain : plainKey key = plainKey key') :
    key = key' := by
  obtain ⟨segment, hs, hs'⟩ := h
  exact eq_of_spells hs hs' hplain

theorem count_nameOf {c : Char} (hc : c ≠ '_') (keys : List Text) :
    (nameOf keys).count c = (keys.flatMap plainKey).count c := by
  induction keys using List.reverseRecOn with
  | nil => rfl
  | append_singleton keys key ih =>
      rw [nameOf_concat, List.flatMap_append, List.count_append, ← ih, extendName]
      split
      · simp_all
      · simp [hc.symm]

theorem count_nameOf_congr {c : Char} (hc : c ≠ ':') (hq : c ≠ '?') (hu : c ≠ '_') {keys keys' : List Text}
    (h : List.Forall₂ Alike keys keys') : (nameOf keys).count c = (nameOf keys').count c := by
  rw [count_nameOf hu, count_nameOf hu]
  induction h with
  | nil => rfl
  | cons hk _ ih => rw [List.flatMap_cons, List.flatMap_cons, List.count_append, List.count_append, ih,
      hk.count_plainKey hc hq]

theorem forall₂_concat_left {R : Text → Text → Prop} {keys keys' : List Text} {key : Text}
    (h : List.Forall₂ R (keys ++ [key]) keys') :
    ∃ front key', keys' = front ++ [key'] ∧ List.Forall₂ R keys front ∧ R key key' := by
  have hr := List.forall₂_reverse_iff.2 h
  rw [List.reverse_append, List.reverse_singleton, List.singleton_append] at hr
  obtain ⟨key', front, hkey, hfront, he⟩ := List.forall₂_cons_left_iff.1 hr
  refine ⟨front.reverse, key', by simpa using congrArg List.reverse he, ?_, hkey⟩
  exact List.forall₂_reverse_iff.1 (by rwa [List.reverse_reverse])

/-- Seen from the end, the underscores of a key tell where its part of the name begins. -/
theorem eq_of_nameOf_eq {keys keys' : List Text} (h : List.Forall₂ Alike keys keys')
    (hname : nameOf keys = nameOf keys') : keys = keys' := by
  induction keys using List.reverseRecOn generalizing keys' with
  | nil => exact (List.forall₂_nil_left_iff.1 h).symm
  | append_singleton keys key ih =>
      obtain ⟨front, key', rfl, hfront, hkey⟩ := forall₂_concat_left h
      have hcount : (plainKey key).count '_' = (plainKey key').count '_' :=
        hkey.count_plainKey (by decide) (by decide)
      suffices nameOf keys = nameOf front ∧ plainKey key = plainKey key' by
        rw [ih hfront this.1, hkey.eq_of_plainKey this.2]
      rw [nameOf_concat, nameOf_concat, extendName, extendName] at hname
      cases hn : nameOf keys with
      | nil =>
          cases hf : nameOf front with
          | nil => exact ⟨rfl, by simpa [hn, hf] using hname⟩
          | cons c s =>
              have he : plainKey key = (c :: s) ++ '_' :: plainKey key' := by simpa [hn, hf] using hname
              exact absurd hcount (count_ne_of_append_cons he)
      | cons c s =>
          cases hf : nameOf front with
          | nil =>
              have he : plainKey key' = (c :: s) ++ '_' :: plainKey key := by simpa [hn, hf] using hname.symm
              exact absurd hcount (count_ne_of_append_cons he).symm
          | cons d t =>
              rw [hn, hf] at hname
              simp only [List.isEmpty_cons, Bool.false_eq_true, if_false, List.append_assoc,
                List.singleton_append] at hname
              exact append_cons_inj_of_count hname hcount

theorem nameOf_index_ne {keys keys' : List Text} (h : List.Forall₂ Alike keys keys') :
    nameOf (keys ++ [indexKey]) ≠ nameOf keys' := by
  intro hname
  have hcount : (nameOf keys).count 'i' = (nameOf keys').count 'i' :=
    count_nameOf_congr (by decide) (by decide) (by decide) h
  have hindex : (nameOf (keys ++ [indexKey])).count 'i' = (nameOf keys).count 'i' + 1 := by
    rw [count_nameOf (by decide), count_nameOf (by decide), List.flatMap_append, List.count_append]
    rfl
  rw [hname] at hindex
  omega

end RouteTable.Segment
