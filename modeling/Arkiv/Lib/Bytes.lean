import Mathlib

/-!
# Byte strings and big-endian numbers

Fixed-width and minimal big-endian encodings of natural numbers as lists of
bytes, with the two inverse laws and injectivity.

## Main definitions

- `be w n` — the low `w` bytes of `n`, most significant first
- `ofBe` — the number a byte string denotes
- `minBe n` — `n` without leading zero bytes; zero is the empty string
- `ascii` — the bytes of a string of ASCII characters
- `toHex` — two hexadecimal digits for each byte
-/

namespace ByteString

abbrev Bytes := List UInt8

/-- The low `w` bytes of `n`, most significant byte first. -/
def be : ℕ → ℕ → Bytes
  | 0, _ => []
  | w + 1, n => be w (n / 256) ++ [UInt8.ofNat n]

/-- The number denoted by a big-endian byte string. -/
def ofBe (bs : Bytes) : ℕ := bs.foldl (fun acc b => acc * 256 + b.toNat) 0

/-- How many bytes a number takes without leading zeros. -/
def byteLen (n : ℕ) : ℕ := if n = 0 then 0 else Nat.log2 n / 8 + 1

/-- The shortest big-endian form; zero is the empty string. -/
def minBe (n : ℕ) : Bytes := be (byteLen n) n

/-- The bytes of a string literal; the literals are all ASCII. -/
def ascii (s : String) : Bytes := s.toUTF8.data.toList

/-- A digit of base 16 in lower case. -/
def hexDigit (n : ℕ) : UInt8 := UInt8.ofNat (if n < 10 then 0x30 + n else 0x57 + n)

def hexValue (b : UInt8) : ℕ := if b < 0x61 then b.toNat - 0x30 else b.toNat - 0x57

/-- Two digits for each byte. -/
def toHex (bytes : Bytes) : Bytes :=
  bytes.flatMap fun b => [hexDigit (b.toNat / 16), hexDigit (b.toNat % 16)]

/-- A decidable property of bytes is checked on the 256 of them. -/
theorem forall_uint8 {p : UInt8 → Prop} (h : ∀ n < 256, p (UInt8.ofNat n)) (b : UInt8) : p b := by
  have hb := h b.toNat b.toNat_lt
  rwa [UInt8.ofNat_toNat] at hb

theorem hexValue_hexDigit (b : UInt8) :
    UInt8.ofNat (16 * hexValue (hexDigit (b.toNat / 16)) + hexValue (hexDigit (b.toNat % 16))) = b :=
  forall_uint8 (p := fun b => UInt8.ofNat (16 * hexValue (hexDigit (b.toNat / 16)) +
    hexValue (hexDigit (b.toNat % 16))) = b) (by decide +kernel) b

theorem toHex_injective : Function.Injective toHex := by
  intro as bs h
  induction as generalizing bs with
  | nil =>
    cases bs with
    | nil => rfl
    | cons b bs => cases h
  | cons a as ih =>
    cases bs with
    | nil => cases h
    | cons b bs =>
      obtain ⟨hhigh, h⟩ := List.cons.inj h
      obtain ⟨hlow, h⟩ := List.cons.inj h
      rw [ih h, ← hexValue_hexDigit a, hhigh, hlow, hexValue_hexDigit]

@[simp] theorem be_length (w n : ℕ) : (be w n).length = w := by
  induction w generalizing n with
  | zero => rfl
  | succ w ih => simp [be, ih]

/-- The most significant byte first. -/
theorem be_succ_eq_cons (w n : ℕ) : be (w + 1) n = UInt8.ofNat (n / 256 ^ w) :: be w n := by
  induction w generalizing n with
  | zero => simp [be]
  | succ w ih =>
    rw [be, ih, be, List.cons_append, Nat.div_div_eq_div_mul, pow_succ, mul_comm 256]

private theorem foldl_ofBe (bs : Bytes) (acc : ℕ) :
    bs.foldl (fun acc b => acc * 256 + b.toNat) acc = acc * 256 ^ bs.length + ofBe bs := by
  induction bs generalizing acc with
  | nil => simp [ofBe]
  | cons b bs ih =>
    simp only [ofBe, List.foldl_cons, List.length_cons]
    rw [ih, ih (0 * 256 + b.toNat)]
    ring

@[simp] theorem ofBe_nil : ofBe [] = 0 := rfl

theorem ofBe_cons (b : UInt8) (bs : Bytes) :
    ofBe (b :: bs) = b.toNat * 256 ^ bs.length + ofBe bs := by
  have h := foldl_ofBe bs (0 * 256 + b.toNat)
  simpa [ofBe] using h

theorem ofBe_append (as bs : Bytes) :
    ofBe (as ++ bs) = ofBe as * 256 ^ bs.length + ofBe bs := by
  rw [ofBe, List.foldl_append]
  exact foldl_ofBe bs (ofBe as)

theorem ofBe_lt (bs : Bytes) : ofBe bs < 256 ^ bs.length := by
  induction bs with
  | nil => simp
  | cons b bs ih =>
    rw [ofBe_cons, List.length_cons, pow_succ]
    have hb := b.toNat_lt
    have hle : b.toNat * 256 ^ bs.length ≤ 255 * 256 ^ bs.length :=
      Nat.mul_le_mul_right _ (by omega)
    omega

/-- Writing and reading back keeps the number modulo the width. -/
theorem ofBe_be_mod (w n : ℕ) : ofBe (be w n) = n % 256 ^ w := by
  induction w generalizing n with
  | zero => simp [be, Nat.mod_one]
  | succ w ih =>
    rw [be, ofBe_append, ih, ofBe_cons]
    simp only [List.length_cons, List.length_nil, pow_zero, mul_one, ofBe_nil, add_zero,
      pow_one, zero_add, UInt8.toNat_ofNat']
    rw [show (2 : ℕ) ^ 8 = 256 from rfl, pow_succ', Nat.mod_mul]
    ring

theorem ofBe_be {w n : ℕ} (h : n < 256 ^ w) : ofBe (be w n) = n := by
  rw [ofBe_be_mod, Nat.mod_eq_of_lt h]

theorem be_ofBe {w : ℕ} {bs : Bytes} (h : bs.length = w) : be w (ofBe bs) = bs := by
  induction bs using List.reverseRecOn generalizing w with
  | nil => subst h; rfl
  | append_singleton bs b ih =>
    simp only [List.length_append, List.length_singleton] at h
    subst h
    have hlt : b.toNat < 256 := b.toNat_lt
    have hn : ofBe (bs ++ [b]) = ofBe bs * 256 + b.toNat := by
      rw [ofBe_append]; simp [ofBe_cons]
    have hdiv : (ofBe bs * 256 + b.toNat) / 256 = ofBe bs := by omega
    have hbyte : UInt8.ofNat (ofBe bs * 256 + b.toNat) = b := by
      apply UInt8.toNat_inj.mp
      rw [UInt8.toNat_ofNat']
      omega
    rw [be, hn, hdiv, ih rfl, hbyte]

theorem be_inj {w m n : ℕ} (hm : m < 256 ^ w) (hn : n < 256 ^ w) (h : be w m = be w n) :
    m = n := by
  rw [← ofBe_be hm, h, ofBe_be hn]

/-- Bytes of one width compare as the numbers that they stand for. -/
theorem lt_iff_ofBe_lt {as bs : Bytes} (h : as.length = bs.length) : as < bs ↔ ofBe as < ofBe bs := by
  induction as generalizing bs with
  | nil =>
    obtain rfl := List.length_eq_zero_iff.mp h.symm
    simp
  | cons a as ih =>
    cases bs with
    | nil => simp at h
    | cons b bs =>
      have hlen : as.length = bs.length := Nat.succ.inj h
      have ha := ofBe_lt as
      have hb := ofBe_lt bs
      rw [List.cons_lt_cons_iff, ih hlen, ofBe_cons, ofBe_cons, ← hlen, UInt8.lt_iff_toNat_lt,
        ← UInt8.toNat_inj]
      rw [← hlen] at hb
      constructor
      · rintro (hlt | ⟨heq, hlt⟩)
        · have hstep : (a.toNat + 1) * 256 ^ as.length ≤ b.toNat * 256 ^ as.length :=
            Nat.mul_le_mul_right _ hlt
          rw [Nat.succ_mul] at hstep
          omega
        · rw [heq]
          omega
      · intro hlt
        by_cases hle : a.toNat < b.toNat
        · exact .inl hle
        · have hstep : b.toNat * 256 ^ as.length ≤ a.toNat * 256 ^ as.length :=
            Nat.mul_le_mul_right _ (by omega)
          have heq : a.toNat = b.toNat := by
            by_contra hne
            have hmore : (b.toNat + 1) * 256 ^ as.length ≤ a.toNat * 256 ^ as.length :=
              Nat.mul_le_mul_right _ (by omega)
            rw [Nat.succ_mul] at hmore
            omega
          rw [heq] at hlt
          exact .inr ⟨heq, by omega⟩

theorem le_iff_ofBe_le {as bs : Bytes} (h : as.length = bs.length) : as ≤ bs ↔ ofBe as ≤ ofBe bs := by
  rw [← not_lt, ← List.not_lt, lt_iff_ofBe_lt h.symm]

theorem ofBe_replicate_append (k : ℕ) (bs : Bytes) : ofBe (List.replicate k 0 ++ bs) = ofBe bs := by
  induction k with
  | zero => rfl
  | succ k ih =>
    rw [List.replicate_succ, List.cons_append, ofBe_cons, ih]
    simp

@[simp] theorem byteLen_zero : byteLen 0 = 0 := rfl

theorem lt_pow_byteLen (n : ℕ) : n < 256 ^ byteLen n := by
  by_cases h : n = 0
  · subst h; simp
  · have hlog : n < 2 ^ (Nat.log2 n + 1) := Nat.lt_log2_self
    have hexp : Nat.log2 n + 1 ≤ 8 * (Nat.log2 n / 8 + 1) := by omega
    rw [byteLen, if_neg h, show (256 : ℕ) = 2 ^ 8 from rfl, ← pow_mul]
    exact lt_of_lt_of_le hlog (Nat.pow_le_pow_right (by norm_num) hexp)

theorem pow_byteLen_le {n : ℕ} (h : n ≠ 0) : 256 ^ (byteLen n - 1) ≤ n := by
  have hlog : 2 ^ Nat.log2 n ≤ n := Nat.log2_self_le h
  rw [byteLen, if_neg h, Nat.add_sub_cancel, show (256 : ℕ) = 2 ^ 8 from rfl, ← pow_mul]
  exact le_trans (Nat.pow_le_pow_right (by norm_num) (Nat.mul_div_le _ _)) hlog

theorem byteLen_le {n w : ℕ} (h : n < 256 ^ w) : byteLen n ≤ w := by
  by_cases h0 : n = 0
  · subst h0; simp
  · by_contra hw
    have hle := pow_byteLen_le h0
    have hmono : 256 ^ w ≤ 256 ^ (byteLen n - 1) :=
      Nat.pow_le_pow_right (by norm_num) (by omega)
    omega

@[simp] theorem minBe_length (n : ℕ) : (minBe n).length = byteLen n := be_length _ _

@[simp] theorem ofBe_minBe (n : ℕ) : ofBe (minBe n) = n := ofBe_be (lt_pow_byteLen n)

/-- The minimal form has no leading zero byte. -/
theorem minBe_head_ne_zero {n : ℕ} {b : UInt8} {bs : Bytes} (h : minBe n = b :: bs) : b ≠ 0 := by
  rintro rfl
  have hlen : byteLen n = bs.length + 1 := by rw [← minBe_length, h]; rfl
  have hn : n = ofBe bs := by
    conv_lhs => rw [← ofBe_minBe n, h, ofBe_cons]
    simp
  have hlt : n < 256 ^ bs.length := hn ▸ ofBe_lt bs
  have := byteLen_le hlt
  omega

end ByteString
