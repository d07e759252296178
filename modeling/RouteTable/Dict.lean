import RouteTable.Order

namespace RouteTable

/-- The entries of a finite map. Every map built by `insert` from the empty one is `Ordered`. -/
abbrev Dict (β : Type) := List (Text × β)

namespace Dict

variable {β γ : Type}

def get? (k : Text) : Dict β → Option β
  | [] => none
  | (k', x) :: d => if k' = k then some x else get? k d

def insert (k : Text) (x : β) : Dict β → Dict β
  | [] => [(k, x)]
  | (k', x') :: d =>
    match Order.text k k' with
    | .lt => (k, x) :: (k', x') :: d
    | .eq => (k, x) :: d
    | .gt => (k', x') :: insert k x d

def ofList (entries : List (Text × β)) : Dict β :=
  entries.foldl (fun d e => d.insert e.1 e.2) []

def keys (d : Dict β) : List Text := d.map Prod.fst

def Ordered (d : Dict β) : Prop := d.Pairwise fun a b => Order.text a.1 b.1 = .lt

theorem get?_insert_self (k : Text) (x : β) (d : Dict β) : get? k (insert k x d) = some x := by
  induction d with
  | nil => simp [insert, get?]
  | cons e d ih =>
      obtain ⟨k', x'⟩ := e
      rw [insert]
      split
      · simp [get?]
      · simp [get?]
      · next h =>
          have hne : k' ≠ k := by
            rintro rfl
            simp [Order.text_self] at h
          simp [get?, hne, ih]

theorem get?_insert_of_ne {k k₁ : Text} (hne : k ≠ k₁) (x : β) (d : Dict β) :
    get? k₁ (insert k x d) = get? k₁ d := by
  induction d with
  | nil => simp [insert, get?, hne]
  | cons e d ih =>
      obtain ⟨k', x'⟩ := e
      rw [insert]
      split
      · simp [get?, hne]
      · next h =>
          have := Order.eq_of_text h
          subst this
          simp [get?, hne]
      · by_cases hk : k' = k₁ <;> simp [get?, hk, ih]

theorem mem_of_get?_eq_some {k : Text} {x : β} {d : Dict β} (h : d.get? k = some x) : (k, x) ∈ d := by
  induction d with
  | nil => cases h
  | cons e d ih =>
      obtain ⟨k', x'⟩ := e
      by_cases hk : k' = k
      · subst hk
        simp only [get?, if_true, Option.some.injEq] at h
        exact h ▸ List.mem_cons_self
      · simp only [get?, hk, if_false] at h
        exact List.mem_cons_of_mem _ (ih h)

theorem exists_get?_of_mem {e : Text × β} {d : Dict β} (h : e ∈ d) : ∃ x, d.get? e.1 = some x := by
  induction d with
  | nil => cases h
  | cons e' d ih =>
      by_cases hk : e'.1 = e.1
      · exact ⟨e'.2, by simp [get?, hk]⟩
      · rcases List.mem_cons.1 h with rfl | h
        · exact absurd rfl hk
        · obtain ⟨x, hx⟩ := ih h
          exact ⟨x, by simp [get?, hk, hx]⟩

theorem mem_insert {k : Text} {x : β} {e : Text × β} {d : Dict β} (h : e ∈ insert k x d) :
    e = (k, x) ∨ e ∈ d := by
  induction d with
  | nil => simpa [insert] using h
  | cons e' d ih =>
      obtain ⟨k', x'⟩ := e'
      rw [insert] at h
      split at h
      · simpa using h
      · rcases List.mem_cons.1 h with h | h
        · exact .inl h
        · exact .inr (by simp [h])
      · rcases List.mem_cons.1 h with h | h
        · exact .inr (by simp [h])
        · rcases ih h with h | h
          · exact .inl h
          · exact .inr (by simp [h])

theorem Ordered.get?_of_mem {d : Dict β} (h : Ordered d) {e : Text × β} (he : e ∈ d) : d.get? e.1 = some e.2 := by
  induction d with
  | nil => cases he
  | cons e' d ih =>
      obtain ⟨hlt, hd⟩ := List.pairwise_cons.1 h
      rcases List.mem_cons.1 he with rfl | he
      · simp [get?]
      · have hne : e'.1 ≠ e.1 := fun hk => by simpa [hk, Order.text_self] using hlt e he
        simpa [get?, hne] using ih hd he

theorem Ordered.insert {d : Dict β} (h : Ordered d) (k : Text) (x : β) :
    Ordered (d.insert k x) := by
  induction d with
  | nil => simp [Dict.insert, Ordered]
  | cons e d ih =>
      obtain ⟨k', x'⟩ := e
      have hd : Ordered d := (List.pairwise_cons.1 h).2
      have hlt := (List.pairwise_cons.1 h).1
      rw [Dict.insert]
      split
      · next hk =>
          refine List.pairwise_cons.2 ⟨fun e he => ?_, h⟩
          rcases List.mem_cons.1 he with rfl | he
          · exact hk
          · exact Std.TransCmp.lt_trans hk (hlt e he)
      · next hk =>
          have := Order.eq_of_text hk
          subst this
          exact List.pairwise_cons.2 ⟨fun e he => hlt e he, hd⟩
      · next hk =>
          refine List.pairwise_cons.2 ⟨fun e he => ?_, ih hd⟩
          rcases mem_insert he with rfl | he
          · exact Std.OrientedCmp.gt_iff_lt.1 hk
          · exact hlt e he

theorem ordered_ofList (entries : List (Text × β)) : Ordered (ofList entries) := by
  suffices ∀ d : Dict β, Ordered d → Ordered (entries.foldl (fun d e => d.insert e.1 e.2) d) from
    this [] List.Pairwise.nil
  induction entries with
  | nil => exact fun d h => h
  | cons e entries ih => exact fun d h => ih _ (h.insert e.1 e.2)

end Dict

end RouteTable
