import RouteTable.Json
import RouteTable.Segment

namespace RouteTable

abbrev Fields := Json.Object

abbrev MixinSet := Dict Fields

namespace Mixin

def reserved : List Text :=
  ["name".toList, "path".toList, "component".toList, "children".toList]

def isReserved (field : Text) : Bool := reserved.contains field

structure Rejected where
  mixin : Text
  field : Text
deriving DecidableEq, Repr

def allowed (fields : Fields) : Fields := fields.filter fun e => !isReserved e.1

def fieldsOf (mixins : MixinSet) (name : Text) : Fields := (mixins.get? name).getD []

/-- Merges the named mixins in turn, so later ones win. -/
def apply (mixins : MixinSet) (fields : Fields) (names : List Text) : Fields :=
  names.foldl (fun fields name => Json.mergeMembers fields (allowed (fieldsOf mixins name))) fields

def rejected (mixins : MixinSet) (names : List Text) : List Rejected :=
  names.flatMap fun name =>
    ((fieldsOf mixins name).filter fun e => isReserved e.1).map fun e => ⟨name, e.1⟩

theorem ordered_apply {fields : Fields} (h : Dict.Ordered fields) (mixins : MixinSet)
    (names : List Text) : Dict.Ordered (apply mixins fields names) := by
  induction names generalizing fields with
  | nil => exact h
  | cons name names ih => exact ih (Json.ordered_mergeMembers h _)

theorem get?_allowed_of_isReserved {field : Text} (h : isReserved field = true) (fields : Fields) :
    (allowed fields).get? field = none := by
  induction fields with
  | nil => rfl
  | cons e fields ih =>
      unfold allowed at ih ⊢
      by_cases he : isReserved e.1 = true
      · rw [List.filter_cons_of_neg (by simp [he])]
        exact ih
      · have hne : e.1 ≠ field := fun k => he (k ▸ h)
        rw [List.filter_cons_of_pos (by simp [he])]
        simp [Dict.get?, hne, ih]

theorem get?_apply_of_isReserved {field : Text} (h : isReserved field = true) (mixins : MixinSet)
    (fields : Fields) (names : List Text) :
    (apply mixins fields names).get? field = fields.get? field := by
  induction names generalizing fields with
  | nil => rfl
  | cons name names ih =>
      have := ih (Json.mergeMembers fields (allowed (fieldsOf mixins name)))
      rw [Json.get?_mergeMembers, get?_allowed_of_isReserved h] at this
      exact this

end Mixin

namespace MixinSet

/-- Adds a mixin, or replaces the one of that name; a value that is no object is ignored. -/
def add (mixins : MixinSet) (name : Text) (value : Json) : MixinSet :=
  match value.object? with
  | some fields => mixins.insert name fields
  | none => mixins

end MixinSet

end RouteTable
