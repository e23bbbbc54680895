import Mathlib
import Arkiv.Lib.Bytes

/-!
# JSON text of flat objects

The text that a writer without white space makes of an object whose members are
strings and natural numbers. Strings end at their closing quote, numbers at the
first byte that is no digit, so the text determines the members.

## Main definitions

- `Unambiguous` — where the text of a value ends is never in doubt
- `escapeByte`, `quoted`, `decimal` — strings and numbers
- `Value`, `object` — members and objects
- `object_injective` — an object is determined by its text
-/

namespace Json

open ByteString

/-- Texts that begin alike and go on with what may follow have written the same value. -/
def Unambiguous {α : Type} (Follows : Bytes → Prop) (write : α → Bytes) : Prop :=
  ∀ ⦃a b : α⦄ ⦃r r' : Bytes⦄, Follows r → Follows r' → write a ++ r = write b ++ r' → a = b ∧ r = r'

/-- What can be read back is unambiguous. -/
theorem Unambiguous.of_read {α : Type} {Follows : Bytes → Prop} {write : α → Bytes}
    {read : Bytes → Option (α × Bytes)}
    (h : ∀ a r, Follows r → read (write a ++ r) = some (a, r)) : Unambiguous Follows write := by
  intro a b r r' hr hr' heq
  have hread := h b r' hr'
  rw [← heq, h a r hr] at hread
  exact Prod.mk.inj (Option.some.inj hread)

/-- Quotes, backslashes and control characters are escaped. -/
def escapeByte (b : UInt8) : Bytes :=
  if b = 0x22 then [0x5c, 0x22]
  else if b = 0x5c then [0x5c, 0x5c]
  else if b = 0x08 then [0x5c, 0x62]
  else if b = 0x09 then [0x5c, 0x74]
  else if b = 0x0a then [0x5c, 0x6e]
  else if b = 0x0c then [0x5c, 0x66]
  else if b = 0x0d then [0x5c, 0x72]
  else if b < 0x20 then [0x5c, 0x75, 0x30, 0x30, hexDigit (b.toNat / 16), hexDigit (b.toNat % 16)]
  else [b]

def quoted (s : Bytes) : Bytes := 0x22 :: s.flatMap escapeByte ++ [0x22]

/-- The decimal digits without leading zeros. -/
def decimal (n : ℕ) : Bytes := (Nat.toDigits 10 n).map fun c => UInt8.ofNat c.toNat

inductive Value where
  | text (s : Bytes)
  | number (n : ℕ)
deriving DecidableEq, Repr

def Value.write : Value → Bytes
  | text s => quoted s
  | number n => decimal n

def member (m : Bytes × Value) : Bytes := quoted m.1 ++ 0x3a :: m.2.write

/-- Members after the first one, and the end of the object. -/
def more : List (Bytes × Value) → Bytes
  | [] => [0x7d]
  | m :: ms => 0x2c :: member m ++ more ms

/-- The members in the order in which they are listed. -/
def object : List (Bytes × Value) → Bytes
  | [] => [0x7b, 0x7d]
  | m :: ms => 0x7b :: member m ++ more ms

section Strings

/-- The byte that a letter behind a backslash stands for. -/
def shortEscape (c : UInt8) : UInt8 :=
  if c = 0x62 then 0x08
  else if c = 0x74 then 0x09
  else if c = 0x6e then 0x0a
  else if c = 0x66 then 0x0c
  else if c = 0x72 then 0x0d
  else c

/-- The first byte of a string and the text behind it. -/
def readByte : Bytes → Option (UInt8 × Bytes)
  | [] => none
  | b :: rest =>
    if b ≠ 0x5c then some (b, rest)
    else
      match rest with
      | [] => none
      | c :: rest =>
        if c ≠ 0x75 then some (shortEscape c, rest)
        else
          match rest with
          | _ :: _ :: high :: low :: rest =>
            some (UInt8.ofNat (16 * hexValue high + hexValue low), rest)
          | _ => none

theorem readByte_escapeByte (b : UInt8) (r : Bytes) : readByte (escapeByte b ++ r) = some (b, r) := by
  unfold escapeByte
  split_ifs with h22 h5c h08 h09 h0a h0c h0d hcontrol
  all_goals try (subst b; rfl)
  · show some (UInt8.ofNat _, r) = some (b, r)
    rw [hexValue_hexDigit]
  · show (if b ≠ 0x5c then _ else _) = _
    rw [if_pos h5c]
    rfl

theorem escapeByte_ne_quote (a : UInt8) : ∃ c ∈ (escapeByte a).head?, c ≠ 0x22 :=
  forall_uint8 (p := fun a => ∃ c ∈ (escapeByte a).head?, c ≠ 0x22) (by decide +kernel) a

theorem quote_ne_escapeByte (a : UInt8) (r t : Bytes) : 0x22 :: r ≠ escapeByte a ++ t := by
  obtain ⟨c, hc, hne⟩ := escapeByte_ne_quote a
  rw [List.eq_cons_of_mem_head? hc]
  intro h
  exact hne (List.cons.inj h).1.symm

theorem unambiguous_escapeByte : Unambiguous (fun _ => True) escapeByte :=
  Unambiguous.of_read fun b r _ => readByte_escapeByte b r

theorem unambiguous_quoted : Unambiguous (fun _ => True) quoted := by
  intro s t r r' _ _ h
  have hbody : s.flatMap escapeByte ++ 0x22 :: r = t.flatMap escapeByte ++ 0x22 :: r' := by
    simpa [quoted] using h
  clear h
  -- The closing quote cannot be taken for an escape, so both strings end together.
  induction s generalizing t with
  | nil =>
    cases t with
    | nil => exact ⟨rfl, (List.cons.inj hbody).2⟩
    | cons b t =>
      rw [List.flatMap_cons, List.append_assoc] at hbody
      exact absurd hbody (quote_ne_escapeByte b _ _)
  | cons a s ih =>
    cases t with
    | nil =>
      rw [List.flatMap_cons, List.append_assoc] at hbody
      exact absurd hbody.symm (quote_ne_escapeByte a _ _)
    | cons b t =>
      rw [List.flatMap_cons, List.flatMap_cons, List.append_assoc, List.append_assoc] at hbody
      obtain ⟨rfl, hrest⟩ := unambiguous_escapeByte trivial trivial hbody
      obtain ⟨rfl, hr⟩ := ih hrest
      exact ⟨rfl, hr⟩

end Strings

section Numbers

def isDigit (b : UInt8) : Bool := 0x30 ≤ b && b ≤ 0x39

/-- The text behind a number does not go on with a digit. -/
def EndsNumber (r : Bytes) : Prop := ∀ b ∈ r.head?, isDigit b = false

theorem digit_toNat {n : ℕ} {c : Char} (h : c ∈ Nat.toDigits 10 n) :
    0x30 ≤ c.toNat ∧ c.toNat ≤ 0x39 := by
  have hdigit : c.isDigit = true := Nat.isDigit_of_mem_toDigits (by decide) (by decide) h
  simpa [Char.isDigit, UInt32.le_iff_toNat_le] using hdigit

theorem isDigit_decimal {n : ℕ} {b : UInt8} (h : b ∈ decimal n) : isDigit b = true := by
  obtain ⟨c, hc, rfl⟩ := List.mem_map.mp h
  obtain ⟨hlo, hhi⟩ := digit_toNat hc
  have hdigits : ∀ m < 0x3a, 0x30 ≤ m → isDigit (UInt8.ofNat m) = true := by decide
  exact hdigits c.toNat (by omega) hlo

theorem ofDigitChars_decimal (n : ℕ) :
    Nat.ofDigitChars 10 ((decimal n).map fun b => Char.ofNat b.toNat) 0 = n := by
  have hchars : (decimal n).map (fun b => Char.ofNat b.toNat) = Nat.toDigits 10 n := by
    rw [decimal, List.map_map]
    conv_rhs => rw [← List.map_id (Nat.toDigits 10 n)]
    refine List.map_congr_left fun c hc => ?_
    have hlt : c.toNat < 2 ^ 8 := by
      obtain ⟨-, hhi⟩ := digit_toNat hc
      omega
    show Char.ofNat (UInt8.ofNat c.toNat).toNat = c
    rw [UInt8.toNat_ofNat_of_lt' hlt, Char.ofNat_toNat]
  rw [hchars, Nat.ofDigitChars_ten_toDigits]

/-- The leading digits, and the text behind them. -/
def readDecimal (text : Bytes) : Option (ℕ × Bytes) :=
  some (Nat.ofDigitChars 10 ((text.takeWhile isDigit).map fun b => Char.ofNat b.toNat) 0,
    text.dropWhile isDigit)

theorem readDecimal_decimal (n : ℕ) (r : Bytes) (h : EndsNumber r) :
    readDecimal (decimal n ++ r) = some (n, r) := by
  have hdigits : ∀ b ∈ decimal n, isDigit b = true := fun b hb => isDigit_decimal hb
  have htake : r.takeWhile isDigit = [] := by
    cases r with
    | nil => rfl
    | cons b r => simp [h b rfl]
  have hdrop : r.dropWhile isDigit = r := by
    cases r with
    | nil => rfl
    | cons b r => simp [h b rfl]
  rw [readDecimal, List.takeWhile_append_of_pos hdigits, List.dropWhile_append_of_pos hdigits, htake,
    hdrop, List.append_nil, ofDigitChars_decimal]

theorem unambiguous_decimal : Unambiguous EndsNumber decimal :=
  Unambiguous.of_read readDecimal_decimal

end Numbers

section Objects

/-- Strings begin with a quote, numbers with a digit. -/
theorem quoted_ne_decimal (s : Bytes) (n : ℕ) (r r' : Bytes) : quoted s ++ r ≠ decimal n ++ r' := by
  intro h
  cases hn : decimal n with
  | nil => exact absurd (List.map_eq_nil_iff.mp hn) Nat.toDigits_ne_nil
  | cons b bs =>
    have hb : isDigit b = true := isDigit_decimal (n := n) (hn ▸ List.mem_cons_self)
    rw [hn] at h
    rw [← (List.cons.inj h).1] at hb
    exact absurd hb (by decide)

theorem unambiguous_value : Unambiguous EndsNumber Value.write := by
  intro v w r r' hr hr' h
  cases v with
  | text s =>
    cases w with
    | text t =>
      obtain ⟨rfl, hrest⟩ := unambiguous_quoted trivial trivial h
      exact ⟨rfl, hrest⟩
    | number n => exact absurd h (quoted_ne_decimal s n r r')
  | number m =>
    cases w with
    | text t => exact absurd h.symm (quoted_ne_decimal t m r' r)
    | number n =>
      obtain ⟨rfl, hrest⟩ := unambiguous_decimal hr hr' h
      exact ⟨rfl, hrest⟩

theorem unambiguous_member : Unambiguous EndsNumber member := by
  rintro ⟨k, v⟩ ⟨l, w⟩ r r' hr hr' h
  have hkey : quoted k ++ 0x3a :: (v.write ++ r) = quoted l ++ 0x3a :: (w.write ++ r') := by
    simpa [member] using h
  obtain ⟨rfl, hvalue⟩ := unambiguous_quoted trivial trivial hkey
  obtain ⟨rfl, hrest⟩ := unambiguous_value hr hr' (List.cons.inj hvalue).2
  exact ⟨rfl, hrest⟩

/-- A comma or the closing brace stands behind every member. -/
theorem endsNumber_more (ms : List (Bytes × Value)) : EndsNumber (more ms) := by
  cases ms <;> rintro b ⟨⟩ <;> rfl

theorem more_injective : Function.Injective more := by
  intro ms ns h
  induction ms generalizing ns with
  | nil =>
    cases ns with
    | nil => rfl
    | cons n ns => exact absurd (List.cons.inj h).1 (by decide)
  | cons m ms ih =>
    cases ns with
    | nil => exact absurd (List.cons.inj h).1 (by decide)
    | cons n ns =>
      obtain ⟨rfl, hrest⟩ := unambiguous_member (endsNumber_more ms) (endsNumber_more ns)
        (List.cons.inj h).2
      rw [ih hrest]

theorem brace_ne_member (m : Bytes × Value) (r r' : Bytes) : 0x7d :: r ≠ member m ++ r' := by
  intro h
  exact absurd (List.cons.inj h).1 (by decide)

/-- **The text determines the object**: its members, their order, names and values. -/
theorem object_injective : Function.Injective object := by
  intro ms ns h
  cases ms with
  | nil =>
    cases ns with
    | nil => rfl
    | cons n ns => exact absurd (List.cons.inj h).2 (brace_ne_member n _ _)
  | cons m ms =>
    cases ns with
    | nil => exact absurd (List.cons.inj h).2.symm (brace_ne_member m _ _)
    | cons n ns =>
      obtain ⟨rfl, hrest⟩ := unambiguous_member (endsNumber_more ms) (endsNumber_more ns)
        (List.cons.inj h).2
      rw [more_injective hrest]

end Objects

end Json
