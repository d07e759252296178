import Mathlib.Data.List.Forall2
import RouteTable.Json.Printer

namespace RouteTable

namespace Text

theorem append_inj_of_all {p : Char → Bool} {s t rest rest' : Text} (hs : s.all p) (ht : t.all p)
    (hrest : ∀ c ∈ rest.head?, p c = false) (hrest' : ∀ c ∈ rest'.head?, p c = false)
    (h : s ++ rest = t ++ rest') : s = t ∧ rest = rest' := by
  induction s generalizing t with
  | nil =>
      cases t with
      | nil => exact ⟨rfl, h⟩
      | cons d t =>
          rw [List.nil_append] at h
          have hd := hrest d (by simp [h])
          simp [hd] at ht
  | cons c s ih =>
      cases t with
      | nil =>
          rw [List.nil_append] at h
          have hc := hrest' c (by simp [← h])
          simp [hc] at hs
      | cons d t =>
          obtain ⟨rfl, htail⟩ := List.cons.inj h
          rw [List.all_cons, Bool.and_eq_true] at hs ht
          obtain ⟨rfl, heq⟩ := ih hs.2 ht.2 htail
          exact ⟨rfl, heq⟩

end Text

namespace Json

section Quoted

variable {s t rest rest' : Text}

def hexValue (c : Char) : Nat := if c.isDigit then c.toNat - 48 else c.toNat - 87

def named (c : Char) : Char :=
  if c = 'n' then '\n'
  else if c = 'r' then '\r'
  else if c = 't' then '\t'
  else if c = 'b' then Char.ofNat 8
  else if c = 'f' then Char.ofNat 12
  else c

def readQuote? : Text → Option (Text × Text)
  | '"' :: s => some ([], s)
  | '\\' :: 'u' :: d₃ :: d₂ :: d₁ :: d₀ :: s =>
    let code := ((hexValue d₃ * 16 + hexValue d₂) * 16 + hexValue d₁) * 16 + hexValue d₀
    (readQuote? s).map (Prod.map (Char.ofNat code :: ·) id)
  | '\\' :: c :: s => (readQuote? s).map (Prod.map (named c :: ·) id)
  | c :: s => if c.toNat < 32 then none else (readQuote? s).map (Prod.map (c :: ·) id)
  | [] => none

def readLiteral? : Text → Option (Text × Text)
  | '"' :: s => readQuote? s
  | _ => none

theorem hexValue_hexDigit {n : Nat} (h : n < 16) : hexValue (hexDigit n) = n := by
  revert n
  decide

theorem escape_cases (c : Char) :
    escape c = [c] ∧ c ≠ '"' ∧ c ≠ '\\' ∧ ¬c.toNat < 32 ∨ (∃ d, escape c = ['\\', d] ∧ d ≠ 'u' ∧ named d = c) ∨
      escape c = ['\\', 'u', '0', '0', hexDigit (c.toNat / 16), hexDigit (c.toNat % 16)] ∧ c.toNat < 32 := by
  by_cases hquote : c = '"'
  · subst hquote
    exact .inr (.inl ⟨'"', rfl, by decide, rfl⟩)
  by_cases hback : c = '\\'
  · subst hback
    exact .inr (.inl ⟨'\\', rfl, by decide, rfl⟩)
  by_cases hn : c = '\n'
  · subst hn
    exact .inr (.inl ⟨'n', rfl, by decide, rfl⟩)
  by_cases hr : c = '\r'
  · subst hr
    exact .inr (.inl ⟨'r', rfl, by decide, rfl⟩)
  by_cases ht : c = '\t'
  · subst ht
    exact .inr (.inl ⟨'t', rfl, by decide, rfl⟩)
  by_cases hb : c.toNat = 8
  · have he : c = Char.ofNat 8 := by rw [← hb, Char.ofNat_toNat]
    subst he
    exact .inr (.inl ⟨'b', rfl, by decide, rfl⟩)
  by_cases hf : c.toNat = 12
  · have he : c = Char.ofNat 12 := by rw [← hf, Char.ofNat_toNat]
    subst he
    exact .inr (.inl ⟨'f', rfl, by decide, rfl⟩)
  by_cases hcontrol : c.toNat < 32
  · refine .inr (.inr ⟨?_, hcontrol⟩)
    simp [escape, hquote, hback, hn, hr, ht, hb, hf, hcontrol]
  · exact .inl ⟨by simp [escape, hquote, hback, hn, hr, ht, hb, hf, hcontrol], hquote, hback, hcontrol⟩

theorem readQuote?_escape (c : Char) (s : Text) :
    readQuote? (escape c ++ s) = (readQuote? s).map (Prod.map (c :: ·) id) := by
  -- raw, behind a backslash, or by its code
  rcases escape_cases c with ⟨h, hquote, hback, hcontrol⟩ | ⟨d, h, hu, hd⟩ | ⟨h, hcontrol⟩
  · rw [h, List.singleton_append, readQuote?, if_neg hcontrol]
    · exact hquote
    · exact fun _ _ _ _ _ hc _ => hback hc
    · exact fun _ _ hc _ => hback hc
  · rw [h, List.cons_append, List.singleton_append, readQuote?, hd]
    exact fun _ _ _ _ _ hc _ => hu hc
  · have hcode : c.toNat / 16 * 16 + c.toNat % 16 = c.toNat := by omega
    have hhigh : hexValue (hexDigit (c.toNat / 16)) = c.toNat / 16 := hexValue_hexDigit (by omega)
    have hlow : hexValue (hexDigit (c.toNat % 16)) = c.toNat % 16 := hexValue_hexDigit (by omega)
    have hzero : hexValue '0' = 0 := rfl
    rw [h]
    simp only [List.cons_append, List.nil_append, readQuote?, hzero, hhigh, hlow, Nat.zero_mul, Nat.zero_add, hcode,
      Char.ofNat_toNat]

/-- No text breaks out of its quotes: the literal of a text reads as that text, whatever follows. -/
theorem readLiteral?_quoted (s rest : Text) : readLiteral? (quoted s ++ rest) = some (s, rest) := by
  simp only [quoted, List.append_assoc, List.cons_append, List.nil_append, readLiteral?]
  induction s with
  | nil => rfl
  | cons c s ih =>
      rw [List.flatMap_cons, List.append_assoc, readQuote?_escape, ih]
      rfl

theorem quoted_append_inj (h : quoted s ++ rest = quoted t ++ rest') : s = t ∧ rest = rest' := by
  have hread := congrArg readLiteral? h
  rw [readLiteral?_quoted, readLiteral?_quoted, Option.some.injEq, Prod.mk.injEq] at hread
  exact hread

end Quoted

end Json

namespace Number

def isMark (c : Char) : Bool := c.isDigit || c == '-' || c == '+' || c == '.' || c == 'e'

theorem all_isMark_ofNat (n : Nat) : (Text.ofNat n).all isMark := by
  refine List.all_eq_true.2 fun c hc => ?_
  have hdigit : c.isDigit := Nat.isDigit_of_mem_toDigits (by decide) (by decide) hc
  simp [isMark, hdigit]

theorem all_isMark_ofInt (n : Int) : (Text.ofInt n).all isMark := by
  cases n with
  | ofNat n => exact all_isMark_ofNat n
  | negSucc n => simpa [Text.ofInt, isMark] using all_isMark_ofNat (n + 1)

theorem all_isMark_zeros (n : Nat) : (Decimal.zeros n).all isMark := by
  refine List.all_eq_true.2 fun c hc => ?_
  rw [List.eq_of_mem_replicate hc]
  rfl

theorem all_isMark_sign (d : Decimal) : d.sign.all isMark := by
  unfold Decimal.sign
  split <;> rfl

theorem all_isMark_take {s : Text} (h : s.all isMark) (n : Nat) : (s.take n).all isMark :=
  List.all_eq_true.2 fun c hc => List.all_eq_true.1 h c (List.mem_of_mem_take hc)

theorem all_isMark_drop {s : Text} (h : s.all isMark) (n : Nat) : (s.drop n).all isMark :=
  List.all_eq_true.2 fun c hc => List.all_eq_true.1 h c (List.mem_of_mem_drop hc)

theorem all_isMark_positional (d : Decimal) : d.positional.all isMark := by
  have hdigits := all_isMark_ofNat d.digits
  have htail : ".0".toList.all isMark := by decide
  have hhead : "0.".toList.all isMark := by decide
  have hpoint : isMark '.' := by decide
  rw [Decimal.positional]
  dsimp only
  split
  · simp only [List.all_append, all_isMark_sign, hdigits, all_isMark_zeros, htail, Bool.and_self]
  · split
    · simp only [List.all_append, List.all_cons, all_isMark_sign, all_isMark_take hdigits, all_isMark_drop hdigits,
        hpoint, Bool.and_self]
    · simp only [List.all_append, all_isMark_sign, hdigits, all_isMark_zeros, hhead, Bool.and_self]

theorem all_isMark_scientific (d : Decimal) : d.scientific.all isMark := by
  have hdigits := all_isMark_ofNat d.digits
  have hfraction : (if ((Text.ofNat d.digits).drop 1).isEmpty then []
      else '.' :: (Text.ofNat d.digits).drop 1).all isMark := by
    split
    · rfl
    · rw [List.all_cons, all_isMark_drop hdigits]
      rfl
  have hplus : (if 0 ≤ d.exponent then ['+'] else []).all isMark := by
    split <;> rfl
  have hmark : isMark 'e' := by decide
  rw [Decimal.scientific]
  simp only [List.all_append, List.all_cons, all_isMark_sign, all_isMark_take hdigits, hfraction, hplus, hmark,
    all_isMark_ofInt, Bool.and_self]

theorem all_isMark_text (n : Number) : n.text.all isMark := by
  cases n with
  | integer n => exact all_isMark_ofInt n
  | float x =>
      rw [text]
      split
      · exact all_isMark_positional _
      · exact all_isMark_scientific _

theorem text_ne_nil (n : Number) : n.text ≠ [] := by
  cases n with
  | integer n =>
      cases n with
      | ofNat n => exact Nat.toDigits_ne_nil
      | negSucc n => exact List.cons_ne_nil _ _
  | float x =>
      rw [text]
      split
      · rw [Decimal.positional]
        dsimp only
        split
        · simp
        · split <;> simp
      · simp [Decimal.scientific]

def Stops (rest : Text) : Prop := ∀ c ∈ rest.head?, isMark c = false

theorem stops_cons {c : Char} {rest : Text} (h : isMark c = false) : Stops (c :: rest) := by
  intro d hd
  cases hd
  exact h

end Number

namespace Json

open Number

/-- The same value, numbers being known by their texts. -/
inductive Agrees : Json → Json → Prop
  | null : Agrees null null
  | bool (b : Bool) : Agrees (bool b) (bool b)
  | number {m n : Number} (h : m.text = n.text) : Agrees (number m) (number n)
  | string (s : Text) : Agrees (string s) (string s)
  | array {items items' : List Json} (h : List.Forall₂ Agrees items items') : Agrees (array items) (array items')
  | object {members members' : List (Text × Json)} (hkeys : members.map Prod.fst = members'.map Prod.fst)
      (h : List.Forall₂ Agrees (members.map Prod.snd) (members'.map Prod.snd)) :
      Agrees (object members) (object members')

def AgreesAt (e e' : Text × Json) : Prop := e.1 = e'.1 ∧ Agrees e.2 e'.2

theorem Agrees.object_of_forall₂ {members members' : List (Text × Json)}
    (h : List.Forall₂ AgreesAt members members') : Agrees (.object members) (.object members') := by
  refine .object ?_ ?_
  · induction h with
    | nil => rfl
    | cons he _ ih => rw [List.map_cons, List.map_cons, he.1, ih]
  · exact List.forall₂_map_left_iff.2 (List.forall₂_map_right_iff.2 (h.imp fun e e' he => he.2))

/-- Induction over a value with one hypothesis for each item or member. -/
theorem induction {motive : Json → Prop} (null : motive null) (bool : ∀ b, motive (bool b))
    (number : ∀ n, motive (number n)) (string : ∀ s, motive (string s))
    (array : ∀ items, (∀ item ∈ items, motive item) → motive (array items))
    (object : ∀ members, (∀ e ∈ members, motive e.2) → motive (object members)) (value : Json) : motive value :=
  @Json.rec motive (fun items => ∀ item ∈ items, motive item) (fun members => ∀ e ∈ members, motive e.2)
    (fun e => motive e.2) null bool number string array object (by simp)
    (fun _ _ hitem hitems => List.forall_mem_cons.2 ⟨hitem, hitems⟩) (by simp)
    (fun _ _ he hmembers => List.forall_mem_cons.2 ⟨he, hmembers⟩) (fun _ _ hvalue => hvalue) value

inductive Kind where
  | null
  | bool
  | number
  | string
  | array
  | object
deriving DecidableEq

def kind : Json → Kind
  | null => .null
  | bool _ => .bool
  | number _ => .number
  | string _ => .string
  | array _ => .array
  | object _ => .object

def Kind.ofLead? (c : Char) : Option Kind :=
  if c = 'n' then some null
  else if c = 't' || c = 'f' then some bool
  else if c = '"' then some string
  else if c = '[' then some array
  else if c = '{' then some object
  else if isMark c then some number
  else none

theorem Kind.ofLead?_of_isMark {c : Char} (h : isMark c) : ofLead? c = some number := by
  have hne : ∀ d, isMark d = false → c ≠ d := by
    rintro d hd rfl
    rw [hd] at h
    cases h
  simp [ofLead?, h, hne 'n' (by decide), hne 't' (by decide), hne 'f' (by decide), hne '"' (by decide),
    hne '[' (by decide), hne '{' (by decide)]

theorem exists_compact_eq_cons (value : Json) : ∃ c s, value.compact = c :: s ∧ Kind.ofLead? c = some value.kind := by
  cases value with
  | null => exact ⟨'n', "ull".toList, by simp [compact], rfl⟩
  | bool b => cases b with
    | false => exact ⟨'f', "alse".toList, by simp [compact], rfl⟩
    | true => exact ⟨'t', "rue".toList, by simp [compact], rfl⟩
  | number n =>
      obtain ⟨c, s, htext⟩ := List.exists_cons_of_ne_nil (text_ne_nil n)
      have hall := all_isMark_text n
      rw [htext, List.all_cons, Bool.and_eq_true] at hall
      exact ⟨c, s, by rw [compact, htext], Kind.ofLead?_of_isMark hall.1⟩
  | string s => exact ⟨'"', _, by rw [compact, quoted]; rfl, rfl⟩
  | array items => exact ⟨'[', _, by rw [compact]; rfl, rfl⟩
  | object members => exact ⟨'{', _, by rw [compact]; rfl, rfl⟩

theorem kind_eq_of_append_eq {v w : Json} {rest rest' : Text} (h : v.compact ++ rest = w.compact ++ rest') :
    v.kind = w.kind := by
  obtain ⟨c, s, hv, hc⟩ := exists_compact_eq_cons v
  obtain ⟨d, t, hw, hd⟩ := exists_compact_eq_cons w
  rw [hv, hw] at h
  rw [(List.cons.inj h).1, hd] at hc
  exact (Option.some.inj hc).symm

def behind (close : Char) (rest : Text) : List Text → Text
  | [] => close :: rest
  | t :: ts => ',' :: Text.joinWith ',' (t :: ts) ++ close :: rest

theorem joinWith_append (close : Char) (rest t : Text) (ts : List Text) :
    Text.joinWith ',' (t :: ts) ++ close :: rest = t ++ behind close rest ts := by
  cases ts with
  | nil => rfl
  | cons u ts => simp [Text.joinWith, behind]

theorem stops_behind {close : Char} (hclose : isMark close = false) (rest : Text) (ts : List Text) :
    Stops (behind close rest ts) := by
  cases ts with
  | nil => exact stops_cons hclose
  | cons t ts => exact stops_cons rfl

theorem joinWith_append_inj {α : Type} {R : α → α → Prop} {p : α → Text} {close : Char} {as bs : List α}
    {rest rest' : Text} (hclose : isMark close = false) (hcomma : close ≠ ',')
    (hstart : ∀ a, ∃ c s, p a = c :: s ∧ c ≠ close)
    (hread : ∀ a ∈ as, ∀ b u u', Stops u → Stops u' → p a ++ u = p b ++ u' → R a b ∧ u = u')
    (h : Text.joinWith ',' (as.map p) ++ close :: rest = Text.joinWith ',' (bs.map p) ++ close :: rest') :
    List.Forall₂ R as bs ∧ rest = rest' := by
  induction as generalizing bs with
  | nil =>
      cases bs with
      | nil => exact ⟨List.Forall₂.nil, (List.cons.inj h).2⟩
      | cons b bs =>
          obtain ⟨c, s, hp, hne⟩ := hstart b
          rw [List.map_cons, joinWith_append, hp] at h
          exact absurd (List.cons.inj h).1.symm hne
  | cons a as ih =>
      cases bs with
      | nil =>
          obtain ⟨c, s, hp, hne⟩ := hstart a
          rw [List.map_cons, joinWith_append, hp] at h
          exact absurd (List.cons.inj h).1 hne
      | cons b bs =>
          rw [List.map_cons, List.map_cons, joinWith_append, joinWith_append] at h
          obtain ⟨hab, hbehind⟩ :=
            hread a List.mem_cons_self b _ _ (stops_behind hclose _ _) (stops_behind hclose _ _) h
          cases as with
          | nil =>
              cases bs with
              | nil => exact ⟨.cons hab .nil, (List.cons.inj hbehind).2⟩
              | cons b' bs => exact absurd (List.cons.inj hbehind).1 hcomma
          | cons a' as =>
              cases bs with
              | nil => exact absurd (List.cons.inj hbehind).1.symm hcomma
              | cons b' bs =>
                  have htail : Text.joinWith ',' ((a' :: as).map p) ++ close :: rest =
                      Text.joinWith ',' ((b' :: bs).map p) ++ close :: rest' := (List.cons.inj hbehind).2
                  obtain ⟨hrest, hend⟩ := ih (fun x hx => hread x (List.mem_cons_of_mem a hx)) htail
                  exact ⟨.cons hab hrest, hend⟩

theorem compactItems_eq (items : List Json) : compactItems items = Text.joinWith ',' (items.map compact) := by
  induction items with
  | nil => rfl
  | cons item items ih =>
      cases items with
      | nil => rfl
      | cons item' items =>
          rw [compactItems, ih]
          · rfl
          · exact List.cons_ne_nil item' items

def compactMember (e : Text × Json) : Text := quoted e.1 ++ ':' :: e.2.compact

theorem compactMembers_eq (members : List (Text × Json)) :
    compactMembers members = Text.joinWith ',' (members.map compactMember) := by
  induction members with
  | nil => rfl
  | cons e members ih =>
      cases members with
      | nil => rfl
      | cons e' members =>
          rw [compactMembers, ih]
          · simp [Text.joinWith, compactMember]
          · exact List.cons_ne_nil e' members

/-- The text of a value tells the value, and where it ends. -/
theorem compact_append_inj (v : Json) : ∀ (w : Json) (rest rest' : Text), Stops rest → Stops rest' →
    v.compact ++ rest = w.compact ++ rest' → Agrees v w ∧ rest = rest' := by
  -- on the value: the first character tells the kind, and then the two texts are read side by side
  induction v using Json.induction with
  | null =>
      intro w rest rest' _ _ h
      have hkind := kind_eq_of_append_eq h
      cases w with
      | null => exact ⟨.null, List.append_cancel_left h⟩
      | _ => cases hkind
  | bool b =>
      intro w rest rest' _ _ h
      have hkind := kind_eq_of_append_eq h
      cases w with
      | bool b' =>
          have hb : b = b' := by
            cases b <;> cases b'
            · rfl
            · cases h
            · cases h
            · rfl
          subst hb
          exact ⟨.bool b, List.append_cancel_left h⟩
      | _ => cases hkind
  | number n =>
      intro w rest rest' hrest hrest' h
      have hkind := kind_eq_of_append_eq h
      cases w with
      | number m =>
          rw [compact, compact] at h
          obtain ⟨htext, hend⟩ := Text.append_inj_of_all (all_isMark_text n) (all_isMark_text m) hrest hrest' h
          exact ⟨.number htext, hend⟩
      | _ => cases hkind
  | string s =>
      intro w rest rest' _ _ h
      have hkind := kind_eq_of_append_eq h
      cases w with
      | string t =>
          rw [compact, compact] at h
          obtain ⟨rfl, hend⟩ := quoted_append_inj h
          exact ⟨.string s, hend⟩
      | _ => cases hkind
  | array items ih =>
      intro w rest rest' _ _ h
      have hkind := kind_eq_of_append_eq h
      cases w with
      | array items' =>
          simp only [compact, compactItems_eq, List.append_assoc, List.cons_append, List.nil_append, List.cons.injEq,
            true_and] at h
          have hstart : ∀ item : Json, ∃ c s, item.compact = c :: s ∧ c ≠ ']' := by
            intro item
            obtain ⟨c, s, hitem, hlead⟩ := exists_compact_eq_cons item
            refine ⟨c, s, hitem, ?_⟩
            rintro rfl
            cases hlead
          obtain ⟨hitems, hend⟩ := joinWith_append_inj (by decide) (by decide) hstart ih h
          exact ⟨.array hitems, hend⟩
      | _ => cases hkind
  | object members ih =>
      intro w rest rest' _ _ h
      have hkind := kind_eq_of_append_eq h
      cases w with
      | object members' =>
          simp only [compact, compactMembers_eq, List.append_assoc, List.cons_append, List.nil_append, List.cons.injEq,
            true_and] at h
          have hstart : ∀ e : Text × Json, ∃ c s, compactMember e = c :: s ∧ c ≠ '}' :=
            fun e => ⟨'"', _, rfl, by decide⟩
          have hread : ∀ e ∈ members, ∀ (e' : Text × Json) (u u' : Text), Stops u → Stops u' →
              compactMember e ++ u = compactMember e' ++ u' → AgreesAt e e' ∧ u = u' := by
            intro e he e' u u' hu hu' hmember
            simp only [compactMember, List.append_assoc, List.cons_append] at hmember
            obtain ⟨hkey, hvalue⟩ := quoted_append_inj hmember
            obtain ⟨hagrees, hend⟩ := ih e he e'.2 u u' hu hu' (List.cons.inj hvalue).2
            exact ⟨⟨hkey, hagrees⟩, hend⟩
          obtain ⟨hmembers, hend⟩ := joinWith_append_inj (by decide) (by decide) hstart hread h
          exact ⟨.object_of_forall₂ hmembers, hend⟩
      | _ => cases hkind

end Json

end RouteTable
