import RouteTable.Order

namespace RouteTable

def Text.bytes (s : Text) : List UInt8 := s.flatMap String.utf8EncodeChar

namespace Order

def byte : UInt8 → UInt8 → Ordering := on nat UInt8.toNat

def bytes : Text → Text → Ordering := on (List.compareLex byte) Text.bytes

instance : Std.TransCmp byte := inferInstanceAs (Std.TransCmp (on nat UInt8.toNat))

theorem nat_eq_eq {m n : Nat} : nat m n = .eq ↔ m = n := Std.LawfulEqCmp.compare_eq_iff_eq

theorem byte_ofNat {m n : Nat} (hm : m < 256) (hn : n < 256) : byte (.ofNat m) (.ofNat n) = nat m n := by
  rw [byte, on, UInt8.toNat_ofNat_of_lt' hm, UInt8.toNat_ofNat_of_lt' hn]

theorem codePoint_lt (c : Char) : c.toNat < 0x110000 := by
  rcases c.valid with hlow | ⟨_, hhigh⟩
  · exact Nat.lt_trans hlow (by decide)
  · exact hhigh

theorem encoded_cases (c : Char) :
    let n := c.toNat
    n < 128 ∧ String.utf8EncodeChar c = [.ofNat n] ∨
      128 ≤ n ∧ n < 2048 ∧ String.utf8EncodeChar c = [.ofNat (n / 64 % 32 + 192), .ofNat (n % 64 + 128)] ∨
      2048 ≤ n ∧ n < 65536 ∧ String.utf8EncodeChar c =
        [.ofNat (n / 4096 % 16 + 224), .ofNat (n / 64 % 64 + 128), .ofNat (n % 64 + 128)] ∨
      65536 ≤ n ∧ String.utf8EncodeChar c =
        [.ofNat (n / 262144 % 8 + 240), .ofNat (n / 4096 % 64 + 128), .ofNat (n / 64 % 64 + 128),
          .ofNat (n % 64 + 128)] := by
  fun_cases String.utf8EncodeChar c with
  | case1 n h => exact .inl ⟨Nat.lt_succ_of_le h, rfl⟩
  | case2 n h h' => exact .inr (.inl ⟨Nat.lt_of_not_le h, Nat.lt_succ_of_le h', rfl⟩)
  | case3 n _ h h' => exact .inr (.inr (.inl ⟨Nat.lt_of_not_le h, Nat.lt_succ_of_le h', rfl⟩))
  | case4 n _ _ h => exact .inr (.inr (.inr ⟨Nat.lt_of_not_le h, rfl⟩))

theorem encoded_ne_nil (c : Char) : String.utf8EncodeChar c ≠ [] := by
  intro hnil
  have hlength := String.length_utf8EncodeChar c
  rw [hnil] at hlength
  exact absurd hlength (Nat.ne_of_lt c.utf8Size_pos)

/-- The first byte tells how many there are, and each of the others six bits of the code point. -/
theorem encoded_lt {c d : Char} (h : c.toNat < d.toNat) (s t : List UInt8) :
    List.compareLex byte (String.utf8EncodeChar c ++ s) (String.utf8EncodeChar d ++ t) = .lt := by
  have hd := codePoint_lt d
  have hdigits : ∀ n : Nat, n / 4096 = n / 64 / 64 := fun n => by omega
  have hdigits' : ∀ n : Nat, n / 262144 = n / 64 / 64 / 64 := fun n => by omega
  rcases encoded_cases c with ⟨_, hc⟩ | ⟨_, _, hc⟩ | ⟨_, _, hc⟩ | ⟨_, hc⟩ <;>
    rcases encoded_cases d with ⟨_, he⟩ | ⟨_, _, he⟩ | ⟨_, _, he⟩ | ⟨_, he⟩ <;>
    rw [hc, he] <;>
    simp (disch := omega) only [List.cons_append, List.nil_append, List.compareLex_cons_cons, byte_ofNat,
      Ordering.then_eq_lt, nat_eq_lt, nat_eq_eq, hdigits, hdigits'] <;>
    omega

theorem compareLex_append_left {α : Type} (cmp : α → α → Ordering) [Std.ReflCmp cmp] (front s t : List α) :
    List.compareLex cmp (front ++ s) (front ++ t) = List.compareLex cmp s t := by
  induction front with
  | nil => rfl
  | cons a front ih =>
      have ha : cmp a a = .eq := Std.ReflCmp.compare_self
      rw [List.cons_append, List.cons_append, List.compareLex_cons_cons, ha]
      exact ih

theorem bytes_cons_cons (c d : Char) (s t : Text) :
    bytes (c :: s) (d :: t) =
      List.compareLex byte (String.utf8EncodeChar c ++ Text.bytes s) (String.utf8EncodeChar d ++ Text.bytes t) := rfl

theorem text_eq_bytes (s t : Text) : text s t = bytes s t := by
  induction s generalizing t with
  | nil =>
      cases t with
      | nil => rfl
      | cons d t =>
          obtain ⟨b, bs, hbytes⟩ := List.exists_cons_of_ne_nil (encoded_ne_nil d)
          rw [bytes, on, Text.bytes, Text.bytes, List.flatMap_cons, hbytes]
          rfl
  | cons c s ih =>
      cases t with
      | nil =>
          obtain ⟨b, bs, hbytes⟩ := List.exists_cons_of_ne_nil (encoded_ne_nil c)
          rw [bytes, on, Text.bytes, Text.bytes, List.flatMap_cons, hbytes]
          rfl
      | cons d t =>
          rw [bytes_cons_cons, text, List.compareLex_cons_cons]
          rcases Nat.lt_trichotomy c.toNat d.toNat with hlt | heq | hgt
          · have hchar : char c d = .lt := nat_eq_lt.2 hlt
            rw [hchar, encoded_lt hlt]
            rfl
          · cases Char.toNat_inj.1 heq
            have hchar : char c c = .eq := Std.ReflCmp.compare_self
            rw [hchar, compareLex_append_left]
            exact ih t
          · have hchar : char c d = .gt := Std.OrientedCmp.gt_of_lt (nat_eq_lt.2 hgt)
            rw [hchar, Std.OrientedCmp.gt_of_lt (encoded_lt hgt (Text.bytes t) (Text.bytes s))]
            rfl

end Order

end RouteTable
