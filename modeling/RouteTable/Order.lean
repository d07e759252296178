import RouteTable.Text

namespace RouteTable.Order

variable {α β : Type}

def nat (m n : Nat) : Ordering := if m < n then .lt else if m = n then .eq else .gt

def on (cmp : β → β → Ordering) (f : α → β) (a b : α) : Ordering := cmp (f a) (f b)

def char : Char → Char → Ordering := on nat Char.toNat

def text : Text → Text → Ordering := List.compareLex char

def texts : List Text → List Text → Ordering := List.compareLex text

def option (cmp : α → α → Ordering) : Option α → Option α → Ordering :=
  on (List.compareLex cmp) Option.toList

theorem nat_eq_lt {m n : Nat} : nat m n = .lt ↔ m < n := by
  unfold nat
  split
  · simp_all
  · split <;> simp_all

theorem nat_isLE {m n : Nat} : (nat m n).isLE ↔ m ≤ n := by
  unfold nat
  split
  · simp
    omega
  · split
    · simp
      omega
    · simp
      omega

instance : Std.TransCmp nat where
  eq_swap {m n} := by
    unfold nat
    by_cases h : m < n
    · have h' : ¬ n < m := by omega
      have h'' : n ≠ m := by omega
      simp [h, h', h'']
    · by_cases e : m = n
      · simp [e]
      · have h' : n < m := by omega
        simp [h, e, h']
  isLE_trans h k := nat_isLE.2 (Nat.le_trans (nat_isLE.1 h) (nat_isLE.1 k))

instance : Std.LawfulEqCmp nat where
  eq_of_compare {m n} h := by
    unfold nat at h
    split at h
    · simp at h
    · split at h
      · assumption
      · simp at h

instance (cmp : β → β → Ordering) [h : Std.TransCmp cmp] (f : α → β) : Std.TransCmp (on cmp f) where
  eq_swap := h.eq_swap
  isLE_trans := h.isLE_trans

theorem eq_of_on {cmp : β → β → Ordering} [h : Std.LawfulEqCmp cmp] {f : α → β} {a b : α}
    (e : on cmp f a b = .eq) : f a = f b :=
  h.eq_of_compare e

instance : Std.TransCmp char := inferInstanceAs (Std.TransCmp (on nat Char.toNat))

instance : Std.LawfulEqCmp char where
  compare_self := (inferInstance : Std.ReflCmp nat).compare_self
  eq_of_compare h := Char.toNat_inj.1 (eq_of_on h)

instance : Std.TransCmp text := inferInstanceAs (Std.TransCmp (List.compareLex char))
instance : Std.LawfulEqCmp text := inferInstanceAs (Std.LawfulEqCmp (List.compareLex char))
instance : Std.TransCmp texts := inferInstanceAs (Std.TransCmp (List.compareLex text))
instance : Std.LawfulEqCmp texts := inferInstanceAs (Std.LawfulEqCmp (List.compareLex text))

instance (cmp : α → α → Ordering) [Std.TransCmp cmp] : Std.TransCmp (option cmp) :=
  inferInstanceAs (Std.TransCmp (on (List.compareLex cmp) Option.toList))

theorem eq_of_text {s t : Text} (h : text s t = .eq) : s = t :=
  (inferInstance : Std.LawfulEqCmp text).eq_of_compare h

theorem text_self (s : Text) : text s s = .eq :=
  (inferInstance : Std.LawfulEqCmp text).compare_self

end RouteTable.Order
