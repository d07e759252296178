import Mathlib.Data.List.Infix
import RouteTable.Proofs.Relative

namespace RouteTable.Path

variable {base target way : Text} {as bs cs ds common climbed rest : List Component} {c : Component}

/-- Each beginning of the base that ends in a step up is a beginning of the target. -/
def SharesStepsUp (base target : Text) : Prop :=
  ∀ front ∈ (plainComponents base).inits, front.getLast? = some .up → front <+: plainComponents target

instance : Decidable (SharesStepsUp base target) :=
  inferInstanceAs (Decidable (∀ front ∈ (plainComponents base).inits, front.getLast? = some .up →
    front <+: plainComponents target))

namespace Parting

theorem symm (h : Parting as bs common climbed rest) : Parting bs as common rest climbed where
  left := h.right
  right := h.left
  longest front hbs has := h.longest front has hbs

theorem sharesStepsUp_iff (h : Parting (plainComponents base) (plainComponents target) common climbed rest) :
    SharesStepsUp base target ↔ .up ∉ climbed := by
  constructor
  · intro hshares hup
    obtain ⟨before, after, rfl⟩ := List.append_of_mem hup
    have hbase : common ++ (before ++ [.up]) <+: plainComponents base := ⟨after, by rw [h.left]; simp⟩
    have htarget := hshares _ ((List.mem_inits _ _).2 hbase) (by simp)
    -- the beginning goes on behind the longest common one
    have hlength := (h.longest _ hbase htarget).length_le
    rw [List.length_append, List.length_append, List.length_singleton] at hlength
    omega
  · intro hup front hfront hlast
    have hcommon : common <+: plainComponents target := ⟨rest, h.right.symm⟩
    have hbase : front <+: common ++ climbed := h.left ▸ (List.mem_inits _ _).1 hfront
    rcases List.prefix_or_prefix_of_prefix hbase (List.prefix_append common climbed) with hle | ⟨more, rfl⟩
    · exact hle.trans hcommon
    · cases more with
      | nil => rwa [List.append_nil]
      | cons c more =>
          have hmore : c :: more <+: climbed := (List.prefix_append_right_inj common).1 hbase
          rw [List.getLast?_append_of_ne_nil common (List.cons_ne_nil c more)] at hlast
          exact absurd (hmore.mem (List.mem_of_getLast? hlast)) hup

theorem isName_of_mem_climbed (h : Parting (plainComponents base) (plainComponents target) common climbed rest)
    (hkind : isAbsolute base = isAbsolute target) (hshares : SharesStepsUp base target) (hc : c ∈ climbed) :
    c.isName = true := by
  have hbase : c ∈ plainComponents base := h.left ▸ List.mem_append_right common hc
  cases c with
  | name s => rfl
  | root => exact absurd hc (h.symm.root_not_mem_rest hkind.symm)
  | here => simpa using (List.mem_filter.1 hbase).2
  | up => exact absurd hc (h.sharesStepsUp_iff.1 hshares)

end Parting

theorem goAll_climb_names (h : ∀ c ∈ ds, c.isName = true) (cs : List Component) :
    goAll (cs ++ ds) (List.replicate ds.length .up) = cs := by
  induction ds using List.reverseRecOn with
  | nil => exact List.append_nil cs
  | append_singleton ds d ih =>
      have hd : d.isName = true := h d (by simp)
      have hstep : goOn (cs ++ (ds ++ [d])) .up = cs ++ ds := by
        rw [← List.append_assoc, goOn, List.getLast?_concat, Option.any_some, if_pos hd, List.dropLast_concat]
      rw [List.length_append, List.length_singleton, List.replicate_succ, goAll, List.foldl_cons, hstep]
      exact ih fun c hc => h c (List.mem_append_left _ hc)

theorem lexical_eq (path : Text) : lexical path = goAll [] (plainComponents path) := (goAll_filter_ne_here _ _).symm

theorem lexical_push (h : isAbsolute way = false) (base : Text) : lexical (push base way) = resolve base way := by
  rw [lexical_eq, plainComponents_push, if_neg (by simp [h]), goAll_append, resolve_eq, lexical_eq]

theorem resolve_relative (hkind : isAbsolute base = isAbsolute target) (hshares : SharesStepsUp base target) :
    resolve base (relative base target) = lexical target := by
  obtain ⟨common, climbed, rest, hparting, hway, _⟩ := plainComponents_relative hkind
  have hnames : ∀ c ∈ climbed, c.isName = true := fun c hc => hparting.isName_of_mem_climbed hkind hshares hc
  calc resolve base (relative base target)
      = goAll (goAll [] (common ++ climbed)) (List.replicate climbed.length .up ++ rest) := by
        rw [resolve_eq, hway, lexical_eq, ← hparting.left]
    _ = goAll (goAll (goAll [] common ++ climbed) (List.replicate climbed.length .up)) rest := by
        rw [goAll_append [] common, goAll_names hnames, goAll_append]
    _ = goAll [] (common ++ rest) := by rw [goAll_climb_names hnames, goAll_append]
    _ = lexical target := by rw [lexical_eq, hparting.right]

theorem resolve_reference (hkind : isAbsolute base = isAbsolute target) (hshares : SharesStepsUp base target)
    (hslash : '\\' ∉ target) : resolve base (reference target base) = lexical target := by
  rw [resolve_eq, plainComponents_reference hkind hslash, ← resolve_eq, resolve_relative hkind hshares]

/-- A way is relative and leads back from the base to its target, so a reference tells where its target is. -/
theorem relative_leads_back (base target : Text) (hkind : isAbsolute base = isAbsolute target)
    (hshares : SharesStepsUp base target) :
    lexical (push base (relative base target)) = lexical target ∧ isAbsolute (relative base target) = false ∧
      ∀ other, isAbsolute base = isAbsolute other → SharesStepsUp base other → '\\' ∉ target → '\\' ∉ other →
        lexical target ≠ lexical other → reference target base ≠ reference other base := by
  have hrelative := isAbsolute_relative hkind
  refine ⟨(lexical_push hrelative base).trans (resolve_relative hkind hshares), hrelative, ?_⟩
  intro other hkind' hshares' hslash hslash' hne href
  have htarget := resolve_reference hkind hshares hslash
  rw [href, resolve_reference hkind' hshares' hslash'] at htarget
  exact hne htarget.symm

/-- Shared steps up, dots, one more step up in a target, and a target in front of the base. -/
theorem relative_leads_back_users :
    let base := "../src/../app/./pages".toList
    let users := "./../src/../app/users/../b.vue".toList
    let above := "../src/../app".toList
    isAbsolute base = isAbsolute users ∧ SharesStepsUp base users ∧
      relative base users = "../users/../b.vue".toList ∧
      lexical (push base (relative base users)) = lexical users ∧
      isAbsolute base = isAbsolute above ∧ SharesStepsUp base above ∧ relative base above = "../".toList ∧
      lexical users ≠ lexical above ∧ reference users base ≠ reference above base := by
  intro base users above
  have hkind : isAbsolute base = isAbsolute users := by decide
  have hkind' : isAbsolute base = isAbsolute above := by decide
  have hshares : SharesStepsUp base users := by decide
  have hshares' : SharesStepsUp base above := by decide
  have hne : lexical users ≠ lexical above := by decide
  obtain ⟨hback, _, hinj⟩ := relative_leads_back base users hkind hshares
  exact ⟨hkind, hshares, rfl, hback, hkind', hshares', rfl, hne,
    hinj above hkind' hshares' (by decide) (by decide) hne⟩

end RouteTable.Path
