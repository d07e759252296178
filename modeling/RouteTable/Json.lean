import RouteTable.Dict
import RouteTable.Number

namespace RouteTable

inductive Json where
  | null
  | bool (value : Bool)
  | number (value : Number)
  | string (value : Text)
  | array (items : List Json)
  | object (members : List (Text × Json))
deriving Inhabited

namespace Json

abbrev Object := Dict Json

def object? : Json → Option Object
  | object members => some members
  | _ => none

def isNull : Json → Bool
  | null => true
  | _ => false

mutual

/-- Objects merge member by member; anything else gives way to `source`. -/
def merge : (target source : Json) → Json
  | object target, object source => object (mergeMembers target source)
  | _, source => source

def mergeMembers (target : Object) : (source : Object) → Object
  | [] => target
  | (key, value) :: source =>
    (mergeMembers target source).insert key (merge ((target.get? key).getD null) value)

end

theorem merge_null (source : Json) : merge null source = source := by
  simp [merge]

theorem get?_mergeMembers (key : Text) (target source : Object) :
    (mergeMembers target source).get? key =
      match source.get? key with
      | some value => some (merge ((target.get? key).getD null) value)
      | none => target.get? key := by
  induction source with
  | nil => simp [mergeMembers, Dict.get?]
  | cons e source ih =>
      obtain ⟨k, value⟩ := e
      by_cases h : k = key
      · subst h
        simp [mergeMembers, Dict.get?, Dict.get?_insert_self]
      · simp [mergeMembers, Dict.get?, Dict.get?_insert_of_ne h, h, ih]

theorem ordered_mergeMembers {target : Object} (h : Dict.Ordered target) (source : Object) :
    Dict.Ordered (mergeMembers target source) := by
  induction source with
  | nil => simpa [mergeMembers] using h
  | cons e source ih =>
      obtain ⟨k, value⟩ := e
      simpa [mergeMembers] using ih.insert k _

end Json

end RouteTable
