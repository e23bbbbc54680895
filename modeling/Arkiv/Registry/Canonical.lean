import Mathlib
import Arkiv.Model.Rpc
import Arkiv.Query.Names

/-!
# Attributes keep what they were given

The stored key and value of an accepted attribute have the words of its calldata
up to zeros at the end, and the texts that are answered for them determine them.

## Main definitions

- `Accepted` — an attribute of calldata and the attribute it is stored as
- `Keeps` — the words are key and value with zeros behind them
- `attributes_lossless` — accepted attributes keep their words and have different answers
-/

namespace Arkiv

open ByteString

section Utf8

variable {b₀ b₁ b₂ b₃ : UInt8}

theorem uint8_ofNat_eq {b : UInt8} {n : ℕ} (h : n = b.toNat) : UInt8.ofNat n = b := by
  rw [h, UInt8.ofNat_toNat]

/-- The character of a scalar value. -/
theorem toNat_charOfNat {n : ℕ} (h : n < 0xD800 ∨ (0xDFFF < n ∧ n < 0x110000)) :
    (Char.ofNat n).val.toNat = n := by
  show (Char.ofNat n).toNat = n
  rw [Char.toNat_ofNat, if_pos h]

theorem utf8EncodeChar_two {n : ℕ} (hn : n = (b₀.toNat - 0xC0) * 64 + continuationBits b₁)
    (h₀ : 0xC2 ≤ b₀.toNat ∧ b₀.toNat ≤ 0xDF) (h₁ : 0x80 ≤ b₁.toNat ∧ b₁.toNat ≤ 0xBF) :
    String.utf8EncodeChar (Char.ofNat n) = [b₀, b₁] := by
  unfold continuationBits at hn
  have hrange : 0x80 ≤ n ∧ n ≤ 0x7FF := by omega
  have hval := toNat_charOfNat (n := n) (by omega)
  unfold String.utf8EncodeChar
  dsimp only
  rw [hval, if_neg (by omega), if_pos (by omega), uint8_ofNat_eq (b := b₀) (by omega),
    uint8_ofNat_eq (b := b₁) (by omega)]

theorem utf8EncodeChar_three {n : ℕ}
    (hn : n = (b₀.toNat - 0xE0) * 4096 + continuationBits b₁ * 64 + continuationBits b₂)
    (h₀ : 0xE0 ≤ b₀.toNat ∧ b₀.toNat ≤ 0xEF) (h₁ : 0x80 ≤ b₁.toNat ∧ b₁.toNat ≤ 0xBF)
    (hlow : b₀.toNat = 0xE0 → 0xA0 ≤ b₁.toNat) (hsurrogate : b₀.toNat = 0xED → b₁.toNat ≤ 0x9F)
    (h₂ : 0x80 ≤ b₂.toNat ∧ b₂.toNat ≤ 0xBF) :
    String.utf8EncodeChar (Char.ofNat n) = [b₀, b₁, b₂] := by
  unfold continuationBits at hn
  have hrange : 0x800 ≤ n ∧ n ≤ 0xFFFF ∧ (n < 0xD800 ∨ 0xDFFF < n) := by omega
  have hval := toNat_charOfNat (n := n) (by omega)
  unfold String.utf8EncodeChar
  dsimp only
  rw [hval, if_neg (by omega), if_neg (by omega), if_pos (by omega),
    uint8_ofNat_eq (b := b₀) (by omega), uint8_ofNat_eq (b := b₁) (by omega),
    uint8_ofNat_eq (b := b₂) (by omega)]

theorem utf8EncodeChar_four {n : ℕ}
    (hn : n = (b₀.toNat - 0xF0) * 262144 + continuationBits b₁ * 4096 +
      continuationBits b₂ * 64 + continuationBits b₃)
    (h₀ : 0xF0 ≤ b₀.toNat ∧ b₀.toNat ≤ 0xF4) (h₁ : 0x80 ≤ b₁.toNat ∧ b₁.toNat ≤ 0xBF)
    (hlow : b₀.toNat = 0xF0 → 0x90 ≤ b₁.toNat) (hhigh : b₀.toNat = 0xF4 → b₁.toNat ≤ 0x8F)
    (h₂ : 0x80 ≤ b₂.toNat ∧ b₂.toNat ≤ 0xBF) (h₃ : 0x80 ≤ b₃.toNat ∧ b₃.toNat ≤ 0xBF) :
    String.utf8EncodeChar (Char.ofNat n) = [b₀, b₁, b₂, b₃] := by
  unfold continuationBits at hn
  have hrange : 0x10000 ≤ n ∧ n < 0x110000 := by omega
  have hval := toNat_charOfNat (n := n) (by omega)
  unfold String.utf8EncodeChar
  dsimp only
  rw [hval, if_neg (by omega), if_neg (by omega), if_neg (by omega),
    uint8_ofNat_eq (b := b₀) (by omega), uint8_ofNat_eq (b := b₁) (by omega),
    uint8_ofNat_eq (b := b₂) (by omega), uint8_ofNat_eq (b := b₃) (by omega)]

theorem isContinuation_iff {b : UInt8} :
    isContinuation b = true ↔ 0x80 ≤ b.toNat ∧ b.toNat ≤ 0xBF := by
  simp [isContinuation, UInt8.le_iff_toNat_le]

theorem isSecondOfThree_iff : isSecondOfThree b₀ b₁ = true ↔
    (0x80 ≤ b₁.toNat ∧ b₁.toNat ≤ 0xBF) ∧ (b₀.toNat = 0xE0 → 0xA0 ≤ b₁.toNat) ∧
      (b₀.toNat = 0xED → b₁.toNat ≤ 0x9F) := by
  simp only [isSecondOfThree, isContinuation, beq_iff_eq, ← UInt8.toNat_inj]
  split_ifs with he hd
  all_goals
    simp only [Bool.and_eq_true, decide_eq_true_eq, UInt8.le_iff_toNat_le, UInt8.reduceToNat] at *
    omega

theorem isSecondOfFour_iff : isSecondOfFour b₀ b₁ = true ↔
    (0x80 ≤ b₁.toNat ∧ b₁.toNat ≤ 0xBF) ∧ (b₀.toNat = 0xF0 → 0x90 ≤ b₁.toNat) ∧
      (b₀.toNat = 0xF4 → b₁.toNat ≤ 0x8F) := by
  simp only [isSecondOfFour, isContinuation, beq_iff_eq, ← UInt8.toNat_inj]
  split_ifs with he hd
  all_goals
    simp only [Bool.and_eq_true, decide_eq_true_eq, UInt8.le_iff_toNat_le, UInt8.reduceToNat] at *
    omega

/-- The check of a first and a second byte of three. -/
theorem first_of_three (h : (if (b₀ == 0xE0) = true then decide (0xA0 ≤ b₁) && decide (b₁ ≤ 0xBF)
    else if (b₀ == 0xED) = true then decide (0x80 ≤ b₁) && decide (b₁ ≤ 0x9F)
    else decide (0xE1 ≤ b₀) && decide (b₀ ≤ 0xEF) && isContinuation b₁) = true) :
    (0xE0 ≤ b₀.toNat ∧ b₀.toNat ≤ 0xEF) ∧ isSecondOfThree b₀ b₁ = true := by
  rw [isSecondOfThree_iff]
  simp only [isContinuation, beq_iff_eq, ← UInt8.toNat_inj] at h
  split_ifs at h with he hd
  all_goals
    simp only [Bool.and_eq_true, decide_eq_true_eq, UInt8.le_iff_toNat_le, UInt8.reduceToNat] at *
    omega

/-- The check of a first and a second byte of four. -/
theorem first_of_four (h : (if (b₀ == 0xF0) = true then decide (0x90 ≤ b₁) && decide (b₁ ≤ 0xBF)
    else if (b₀ == 0xF4) = true then decide (0x80 ≤ b₁) && decide (b₁ ≤ 0x8F)
    else decide (0xF1 ≤ b₀) && decide (b₀ ≤ 0xF3) && isContinuation b₁) = true) :
    (0xF0 ≤ b₀.toNat ∧ b₀.toNat ≤ 0xF4) ∧ isSecondOfFour b₀ b₁ = true := by
  rw [isSecondOfFour_iff]
  simp only [isContinuation, beq_iff_eq, ← UInt8.toNat_inj] at h
  split_ifs at h with he hd
  all_goals
    simp only [Bool.and_eq_true, decide_eq_true_eq, UInt8.le_iff_toNat_le, UInt8.reduceToNat] at *
    omega

theorem utf8Bytes_cons (c : Char) (s : List Char) :
    utf8Bytes (c :: s) = String.utf8EncodeChar c ++ utf8Bytes s := List.flatMap_cons

/-- **Valid UTF-8** is the bytes of the text that it is decoded to. -/
theorem utf8Bytes_fromUtf8Lossy {pos : ℕ} {bs : Bytes} (h : invalidUtf8At pos bs = none) :
    utf8Bytes (fromUtf8Lossy bs) = bs := by
  fun_induction invalidUtf8At pos bs with
  | case1 => rfl
  | case2 pos b₀ rest hlt ih =>
    have hascii : b₀.toNat < 128 := UInt8.lt_iff_toNat_lt.mp hlt
    rw [fromUtf8Lossy.eq_def]
    dsimp only
    rw [if_pos hlt, utf8Bytes_cons, ih h, utf8EncodeChar_ascii, toNat_asciiChar,
      UInt8.ofNat_toNat]
    · rfl
    · rw [toNat_asciiChar]
      omega
  -- A sequence of two bytes.
  | case4 pos b₀ cont hlt b₁ rest hfirst hcont ih =>
    have hfirst' : 0xC2 ≤ b₀.toNat ∧ b₀.toNat ≤ 0xDF := by
      simpa [UInt8.le_iff_toNat_le] using hfirst
    have hsecond : isContinuation b₁ = true := hcont
    rw [fromUtf8Lossy.eq_def]
    dsimp only
    rw [if_neg hlt, if_pos hfirst]
    simp only [hsecond, if_true]
    rw [utf8Bytes_cons, ih h, utf8EncodeChar_two rfl hfirst' (isContinuation_iff.mp hsecond)]
    rfl
  -- A sequence of three bytes, neither overlong nor a surrogate.
  | case7 pos b₀ cont hlt b₁ hno b₂ rest second hok ih =>
    obtain ⟨hsecond, hthird⟩ := Bool.and_eq_true_iff.mp hok
    obtain ⟨hfirst, hsecond⟩ := first_of_three hsecond
    have hfirst' : (decide (0xE0 ≤ b₀) && decide (b₀ ≤ 0xEF)) = true := by
      simpa [UInt8.le_iff_toNat_le] using hfirst
    have hthird : isContinuation b₂ = true := hthird
    obtain ⟨hrange, hlow, hsurrogate⟩ := isSecondOfThree_iff.mp hsecond
    rw [fromUtf8Lossy.eq_def]
    dsimp only
    rw [if_neg hlt, if_neg hno, if_pos hfirst']
    simp only [hsecond, hthird, if_true]
    rw [utf8Bytes_cons, ih h, utf8EncodeChar_three rfl hfirst hrange hlow hsurrogate
      (isContinuation_iff.mp hthird)]
    rfl
  -- A sequence of four bytes, neither overlong nor past the last code point.
  | case9 pos b₀ cont hlt b₁ hno b₂ second hnot b₃ rest second' hok ih =>
    obtain ⟨hok, hfourth⟩ := Bool.and_eq_true_iff.mp hok
    obtain ⟨hsecond, hthird⟩ := Bool.and_eq_true_iff.mp hok
    obtain ⟨hfirst, hsecond⟩ := first_of_four hsecond
    have hfirst' : (decide (0xF0 ≤ b₀) && decide (b₀ ≤ 0xF4)) = true := by
      simpa [UInt8.le_iff_toNat_le] using hfirst
    have hno' : ¬(decide (0xE0 ≤ b₀) && decide (b₀ ≤ 0xEF)) = true := by
      simp only [Bool.and_eq_true, decide_eq_true_eq, UInt8.le_iff_toNat_le, UInt8.reduceToNat]
      omega
    have hthird : isContinuation b₂ = true := hthird
    have hfourth : isContinuation b₃ = true := hfourth
    obtain ⟨hrange, hlow, hhigh⟩ := isSecondOfFour_iff.mp hsecond
    rw [fromUtf8Lossy.eq_def]
    dsimp only
    rw [if_neg hlt, if_neg hno, if_neg hno', if_pos hfirst']
    simp only [hsecond, hthird, hfourth, if_true]
    rw [utf8Bytes_cons, ih h, utf8EncodeChar_four rfl hfirst hrange hlow hhigh
      (isContinuation_iff.mp hthird) (isContinuation_iff.mp hfourth)]
    rfl
  | _ => cases h

end Utf8

/-- The letters that a name starts with. -/
def nameLetters : Bytes := ascii "abcdefghijklmnopqrstuvwxyz"

/-- The bytes that it goes on with. -/
def nameBytes : Bytes := nameLetters ++ ascii "0123456789._-"

/-- `[a-z][a-z0-9._-]*`. -/
def MatchesName (name : Bytes) : Prop :=
  ∃ b rest, name = b :: rest ∧ b ∈ nameLetters ∧ ∀ c ∈ rest, c ∈ nameBytes

/-- A name with zeros behind it. -/
def IsPaddedName (raw : B256) : Prop :=
  ∃ name n, b256Bytes raw = name ++ List.replicate n 0 ∧ MatchesName name

section Names

theorem identLeading_iff (b : UInt8) : identLeading b = true ↔ b ∈ nameLetters :=
  forall_uint8 (p := fun b => identLeading b = true ↔ b ∈ nameLetters) (by decide +kernel) b

theorem identCharset_iff (b : UInt8) : identCharset b = true ↔ b ∈ nameBytes :=
  forall_uint8 (p := fun b => identCharset b = true ↔ b ∈ nameBytes) (by decide +kernel) b

theorem isIdent_iff {name : Bytes} : IsIdent name ↔ MatchesName name := by
  constructor
  · rintro ⟨⟨b, hb, hlead⟩, hcharset⟩
    obtain ⟨rest, rfl⟩ := List.head?_eq_some_iff.mp hb
    refine ⟨b, rest, rfl, (identLeading_iff b).mp hlead, fun c hc => ?_⟩
    exact (identCharset_iff c).mp (hcharset c (List.mem_cons_of_mem _ hc))
  · rintro ⟨b, rest, rfl, hlead, hcharset⟩
    have hlead := (identLeading_iff b).mpr hlead
    refine ⟨⟨b, rfl, hlead⟩, List.forall_mem_cons.mpr ⟨identCharset_of_leading hlead, ?_⟩⟩
    exact fun c hc => (identCharset_iff c).mpr (hcharset c hc)

end Names

section Padding

variable {v : Bytes}

/-- Stripping takes zeros only. -/
theorem stripTrailingZeros_append (v : Bytes) :
    v = stripTrailingZeros v ++ List.replicate (v.length - (stripTrailingZeros v).length) 0 := by
  induction v using List.reverseRecOn with
  | nil => rfl
  | append_singleton v b ih =>
    by_cases hb : b = 0
    · have hstrip : stripTrailingZeros (v ++ [b]) = stripTrailingZeros v :=
        List.rdropWhile_concat_pos _ _ _ (by simp [hb])
      have hle := stripTrailingZeros_length_le v
      rw [hstrip, List.length_append, List.length_singleton, Nat.succ_sub hle,
        List.replicate_succ', ← List.append_assoc, ← ih, hb]
    · have hstrip : stripTrailingZeros (v ++ [b]) = v ++ [b] :=
        List.rdropWhile_concat_neg _ _ _ (by simp [hb])
      simp [hstrip]

theorem byteAfterNull_zeros {p : ℕ} {bs : Bytes} (h : byteAfterNull p true bs = none) :
    bs = List.replicate bs.length 0 := by
  induction bs generalizing p with
  | nil => rfl
  | cons b bs ih =>
    rw [byteAfterNull] at h
    by_cases hb : b = 0
    · rw [if_pos hb] at h
      rw [hb, List.length_cons, List.replicate_succ, ← ih h]
    · rw [if_neg hb, if_pos rfl] at h
      cases h

/-- Nothing but zeros comes after the first zero. -/
theorem zero_notMem_of_byteAfterNull {p : ℕ} {bs : Bytes} (h : byteAfterNull p false bs = none) :
    (0 : UInt8) ∉ stripTrailingZeros bs := by
  have hsplit : ∃ s n, bs = s ++ List.replicate n 0 ∧ (0 : UInt8) ∉ s := by
    induction bs generalizing p with
    | nil => exact ⟨[], 0, rfl, by simp⟩
    | cons b bs ih =>
      rw [byteAfterNull] at h
      by_cases hb : b = 0
      · rw [if_pos hb] at h
        refine ⟨[], bs.length + 1, ?_, by simp⟩
        rw [List.nil_append, List.replicate_succ, ← byteAfterNull_zeros h, hb]
      · rw [if_neg hb, if_neg (by simp)] at h
        obtain ⟨s, n, rfl, hs⟩ := ih h
        exact ⟨b :: s, n, rfl, by simp [hs, Ne.symm hb]⟩
  obtain ⟨s, n, rfl, hs⟩ := hsplit
  rwa [stripTrailingZeros_append_replicate hs]

end Padding

/-- An attribute of an accepted list, and the attribute at its place in the list that is stored. -/
def Accepted (a : AbiAttribute) (x : Attribute) : Prop :=
  ∃ attrs xs, validateAttributeNames attrs = .ok () ∧ convertAttributes attrs = .ok xs ∧
    (a, x) ∈ attrs.zip xs

/-- The words of an attribute are its stored key and value with zeros behind them; texts are UTF-8
    without a zero byte, other values are one word. -/
structure Keeps (a : AbiAttribute) (x : Attribute) : Prop where
  name : b256Bytes a.name = x.key ++ List.replicate (32 - x.key.length) 0
  matches_name : MatchesName x.key
  valueType : x.valueType = a.valueType
  value : wordsBytes a.value = x.value ++ List.replicate (128 - x.value.length) 0
  kind : (x.valueType = attrString ∧ (0 : UInt8) ∉ x.value ∧ ∃ s, utf8Bytes s = x.value ∧
      s = fromUtf8Lossy x.value) ∨
    ((x.valueType = attrUint ∨ x.valueType = attrEntityKey) ∧ x.value.length = 32)

section Acceptance

variable {a b : AbiAttribute} {x y : Attribute}

theorem accepted_iff :
    Accepted a x ↔ validateIdent32 a.name = .ok () ∧ convertAttribute a = .ok x := by
  constructor
  · rintro ⟨attrs, xs, hnames, hconv, hmem⟩
    induction attrs generalizing xs with
    | nil => simp at hmem
    | cons c attrs ih =>
      unfold validateAttributeNames at hnames
      obtain ⟨_, hname, hnames⟩ := Runs.ok_bind.mp (List.forM_cons.symm.trans hnames)
      simp only [convertAttributes, List.mapM_cons] at hconv
      obtain ⟨z, hz, hconv⟩ := Runs.ok_bind.mp hconv
      obtain ⟨zs, hzs, hconv⟩ := Runs.ok_bind.mp hconv
      obtain rfl := Except.ok.inj hconv
      rw [List.zip_cons_cons, List.mem_cons] at hmem
      obtain heq | hmem := hmem
      · obtain ⟨rfl, rfl⟩ := Prod.mk.inj heq
        exact ⟨hname, hz⟩
      · exact ih zs hnames hzs hmem
  · rintro ⟨hname, hconv⟩
    refine ⟨[a], [x], ?_, ?_, by simp⟩
    · exact List.forM_cons.trans (Runs.ok_bind.mpr ⟨(), hname, rfl⟩)
    · rw [convertAttributes, List.mapM_cons]
      exact Runs.ok_bind.mpr ⟨x, hconv, rfl⟩

theorem toList_words (words : Words) :
    words.toList = [words.get 0, words.get 1, words.get 2, words.get 3] := by
  obtain ⟨⟨l⟩, hl⟩ := words
  match l, hl with
  | [_, _, _, _], _ => rfl

/-- The words behind the first are zero. -/
theorem wordsBytes_of_rejectNonZeroUpperWords (h : rejectNonZeroUpperWords a = .ok ()) :
    wordsBytes a.value = b256Bytes (a.value.get 0) ++ List.replicate 96 0 := by
  have hzero : ∀ i ∈ [1, 2, 3], a.value.toList.getD i 0 = 0 := by
    unfold rejectNonZeroUpperWords at h
    split at h
    · cases h
    · next hnone => simpa using hnone
  have hbytes : b256Bytes 0 = List.replicate 32 0 := by decide
  have h₁ := hzero 1 (by simp)
  have h₂ := hzero 2 (by simp)
  have h₃ := hzero 3 (by simp)
  rw [toList_words] at h₁ h₂ h₃
  rw [wordsBytes, toList_words, List.flatMap_cons, List.flatMap_cons, List.flatMap_cons,
    List.flatMap_cons, List.flatMap_nil, show a.value.get 1 = 0 from h₁,
    show a.value.get 2 = 0 from h₂, show a.value.get 3 = 0 from h₃, hbytes]
  rfl

theorem wordsBytes_inj {v w : Words} (h : wordsBytes v = wordsBytes w) : v = w := by
  rw [wordsBytes, wordsBytes, toList_words, toList_words] at h
  simp only [List.flatMap_cons, List.flatMap_nil, List.append_nil] at h
  obtain ⟨h₀, h⟩ := List.append_inj h (by simp)
  obtain ⟨h₁, h⟩ := List.append_inj h (by simp)
  obtain ⟨h₂, h₃⟩ := List.append_inj h (by simp)
  apply Vector.toList_inj.mp
  rw [toList_words, toList_words, b256Bytes_inj.mp h₀, b256Bytes_inj.mp h₁, b256Bytes_inj.mp h₂,
    b256Bytes_inj.mp h₃]

/-- The stored key of an accepted name. -/
theorem name_of_validateIdent32 (h : validateIdent32 a.name = .ok ()) :
    b256Bytes a.name =
      ident32ToBytes a.name ++ List.replicate (32 - (ident32ToBytes a.name).length) 0 := by
  obtain ⟨-, n, hbytes⟩ := isIdent_of_validateIdent32 h
  have hlen := congrArg List.length hbytes
  rw [b256Bytes_length, List.length_append, List.length_replicate] at hlen
  rw [show 32 - (ident32ToBytes a.name).length = n by omega]
  exact hbytes

/-- Numbers and entity keys are one word. -/
theorem keeps_word (hname : validateIdent32 a.name = .ok ())
    (htype : a.valueType = attrUint ∨ a.valueType = attrEntityKey)
    (hzero : rejectNonZeroUpperWords a = .ok ()) :
    Keeps a ⟨ident32ToBytes a.name, a.valueType, b256Bytes (a.value.get 0)⟩ := by
  constructor <;> dsimp only
  case name => exact name_of_validateIdent32 hname
  case matches_name => exact isIdent_iff.mp (isIdent_of_validateIdent32 hname).1
  case value =>
    rw [b256Bytes_length]
    exact wordsBytes_of_rejectNonZeroUpperWords hzero
  case kind => exact .inr ⟨htype, b256Bytes_length _⟩

/-- Texts are all four words up to the first zero. -/
theorem keeps_text (hname : validateIdent32 a.name = .ok ()) (htype : a.valueType = attrString)
    (hnull : rejectEmbeddedNullInString a = .ok ()) (hutf8 : rejectInvalidUtf8InString a = .ok ()) :
    Keeps a ⟨ident32ToBytes a.name, a.valueType, packBytes324 a.value⟩ := by
  have hzero : (0 : UInt8) ∉ packBytes324 a.value := by
    unfold rejectEmbeddedNullInString at hnull
    split at hnull
    · cases hnull
    · next hnone => exact zero_notMem_of_byteAfterNull hnone
  have htext : utf8Bytes (fromUtf8Lossy (packBytes324 a.value)) = packBytes324 a.value := by
    unfold rejectInvalidUtf8InString at hutf8
    dsimp only at hutf8
    split at hutf8
    · cases hutf8
    · next hnone => exact utf8Bytes_fromUtf8Lossy hnone
  constructor <;> dsimp only
  case name => exact name_of_validateIdent32 hname
  case matches_name => exact isIdent_iff.mp (isIdent_of_validateIdent32 hname).1
  case value =>
    have hstrip := stripTrailingZeros_append (wordsBytes a.value)
    rwa [wordsBytes_length] at hstrip
  case kind => exact .inl ⟨htype, hzero, _, htext, rfl⟩

/-- **Nothing is lost** between the words of an accepted attribute and what is stored. -/
theorem Accepted.keeps (h : Accepted a x) : Keeps a x := by
  obtain ⟨hname, hconv⟩ := accepted_iff.mp h
  unfold convertAttribute at hconv
  dsimp only at hconv
  split_ifs at hconv with huint hstring hkey
  · obtain ⟨_, hzero, hconv⟩ := Runs.ok_bind.mp hconv
    obtain rfl := Except.ok.inj hconv
    exact keeps_word hname (.inl huint) hzero
  · obtain ⟨_, hnull, hconv⟩ := Runs.ok_bind.mp hconv
    obtain ⟨_, hutf8, hconv⟩ := Runs.ok_bind.mp hconv
    obtain rfl := Except.ok.inj hconv
    exact keeps_text hname hstring hnull hutf8
  · obtain ⟨_, hzero, hconv⟩ := Runs.ok_bind.mp hconv
    obtain rfl := Except.ok.inj hconv
    exact keeps_word hname (.inr hkey) hzero

/-- What is stored determines the attribute. -/
theorem Keeps.abi_eq (ha : Keeps a x) (hb : Keeps b x) : a = b := by
  have hname : a.name = b.name := b256Bytes_inj.mp (ha.name.trans hb.name.symm)
  have htype : a.valueType = b.valueType := ha.valueType.symm.trans hb.valueType
  have hvalue : a.value = b.value := wordsBytes_inj (ha.value.trans hb.value.symm)
  cases a
  cases b
  simp only at hname htype hvalue
  rw [hname, htype, hvalue]

end Acceptance

section Answers

variable {a b : AbiAttribute} {x y : Attribute}

theorem invalidUtf8At_ascii {bs : Bytes} (h : ∀ b ∈ bs, b.toNat ≤ 127) (pos : ℕ) :
    invalidUtf8At pos bs = none := by
  induction bs generalizing pos with
  | nil => rfl
  | cons b bs ih =>
    obtain ⟨hb, hbs⟩ := List.forall_mem_cons.mp h
    have hlt : b < 0x80 := UInt8.lt_iff_toNat_lt.mpr (Nat.lt_succ_of_le hb)
    rw [invalidUtf8At.eq_def]
    dsimp only
    rw [if_pos hlt]
    exact ih hbs _

/-- The text of a key determines the key. -/
theorem Keeps.key_text (h : Keeps a x) : utf8Bytes (fromUtf8Lossy x.key) = x.key :=
  utf8Bytes_fromUtf8Lossy (invalidUtf8At_ascii (isIdent_iff.mpr h.matches_name).ascii 0)

theorem u256FromBeSlice_word {bs : Bytes} (h : bs.length = 32) :
    u256FromBeSlice bs = some (BitVec.ofNat 256 (ofBe bs)) := if_pos h.le

theorem decimalDigits_inj {m n : ℕ} (h : decimalDigits m = decimalDigits n) : m = n := by
  rw [← decimalValue_decimalDigits m, h, decimalValue_decimalDigits]

theorem hexPrefixed_inj {v w : Bytes} (h : hexPrefixed v = hexPrefixed w) : v = w := by
  have hdigits := List.cons.inj (List.cons.inj h).2
  have hv := (hexOf_digits v).hexPairs
  rw [hdigits.2, (hexOf_digits w).hexPairs] at hv
  exact (Option.some.inj hv).symm

/-- Accepted values have a text. -/
theorem Keeps.exists_value (h : Keeps a x) :
    ∃ s, formatAttributeValue x.valueType x.value = some s := by
  unfold formatAttributeValue
  obtain ⟨hstring, -⟩ | ⟨hword, hlen⟩ := h.kind
  · rw [hstring]
    exact ⟨_, rfl⟩
  · obtain hword | hword := hword
    · rw [hword, if_pos rfl, u256FromBeSlice_word hlen]
      exact ⟨_, rfl⟩
    · rw [hword]
      exact ⟨_, rfl⟩

/-- The text of a value determines the value, given its type. -/
theorem Keeps.value_eq (hx : Keeps a x) (hy : Keeps b y) (htype : x.valueType = y.valueType)
    (h : formatAttributeValue x.valueType x.value = formatAttributeValue y.valueType y.value) :
    x.value = y.value := by
  rw [← htype] at h
  obtain ⟨hstring, -, s, hs, rfl⟩ | ⟨hword, hlen⟩ := hx.kind
  · obtain ⟨-, -, t, ht, rfl⟩ | ⟨hword', -⟩ := hy.kind
    · rw [hstring] at h
      have htext : fromUtf8Lossy x.value = fromUtf8Lossy y.value := Option.some.inj h
      rw [← hs, htext, ht]
    · rw [← htype, hstring] at hword'
      exact absurd hword' (by decide)
  · obtain ⟨hstring, -⟩ | ⟨-, hlen'⟩ := hy.kind
    · rw [← htype] at hstring
      rw [hstring] at hword
      exact absurd hword (by decide)
    · obtain hword | hword := hword
      · have hv := ofBe_lt x.value
        have hw := ofBe_lt y.value
        rw [hlen] at hv
        rw [hlen'] at hw
        have hpow : (256 : ℕ) ^ 32 = 2 ^ 256 := by norm_num
        rw [hword, formatAttributeValue, formatAttributeValue, if_pos rfl, if_pos rfl,
          u256FromBeSlice_word hlen, u256FromBeSlice_word hlen'] at h
        have hnumber := decimalDigits_inj (Option.some.inj h)
        rw [BitVec.toNat_ofNat, BitVec.toNat_ofNat, Nat.mod_eq_of_lt (hpow ▸ hv),
          Nat.mod_eq_of_lt (hpow ▸ hw)] at hnumber
        rw [← be_ofBe hlen, hnumber, be_ofBe hlen']
      · rw [hword] at h
        have htext : hexPrefixed x.value = hexPrefixed y.value := Option.some.inj h
        exact hexPrefixed_inj htext

/-- The answer determines the stored attribute. -/
theorem Keeps.eq_of_answer (hx : Keeps a x) (hy : Keeps b y)
    (h : attributeData x = attributeData y) : x = y := by
  obtain ⟨s, hs⟩ := hx.exists_value
  obtain ⟨t, ht⟩ := hy.exists_value
  rw [attributeData, attributeData, hs, ht, Option.map_some, Option.map_some, Option.some.injEq,
    AttributeData.mk.injEq] at h
  obtain ⟨hkey, htype, rfl⟩ := h
  have hkeys : x.key = y.key := by rw [← hx.key_text, hkey, hy.key_text]
  have hvalue := hx.value_eq hy htype (hs.trans ht.symm)
  cases x
  cases y
  simp only at hkeys htype hvalue
  rw [hkeys, htype, hvalue]

end Answers

theorem validateIdent32_iff_padded (raw : B256) :
    validateIdent32 raw = .ok () ↔ IsPaddedName raw := by
  rw [validateIdent32_iff]
  simp only [isIdent_iff]
  rfl

/-- **Canonical attributes.** The accepted name words are the padded names. An accepted attribute
    keeps its words, it has an answer, and two accepted attributes that are stored alike or answered
    alike are the same. -/
theorem attributes_lossless :
    (∀ raw, validateIdent32 raw = .ok () ↔ IsPaddedName raw) ∧
    (∀ a x, Accepted a x → Keeps a x ∧ (attributeData x).isSome) ∧
    ∀ a b x y, Accepted a x → Accepted b y → x = y ∨ attributeData x = attributeData y →
      a = b ∧ x = y := by
  refine ⟨validateIdent32_iff_padded, fun a x h => ?_, fun a b x y ha hb h => ?_⟩
  · obtain ⟨s, hs⟩ := h.keeps.exists_value
    exact ⟨h.keeps, by rw [attributeData, hs]; rfl⟩
  · have heq : x = y := h.elim id (ha.keeps.eq_of_answer hb.keeps)
    subst heq
    exact ⟨ha.keeps.abi_eq hb.keeps, rfl⟩

/-- A text of four characters and five bytes. -/
def titleAttribute : AbiAttribute :=
  ⟨nameWord (ascii "title"), attrString, #v[nameWord [0x63, 0x61, 0x66, 0xC3, 0xA9], 0, 0, 0]⟩

theorem attributes_lossless_title :
    attributeData ⟨ascii "title", attrString, [0x63, 0x61, 0x66, 0xC3, 0xA9]⟩ =
        some ⟨"title".toList, 2, ['c', 'a', 'f', 'é']⟩ ∧
      Keeps titleAttribute ⟨ascii "title", attrString, [0x63, 0x61, 0x66, 0xC3, 0xA9]⟩ := by
  have haccepted : Accepted titleAttribute
      ⟨ascii "title", attrString, [0x63, 0x61, 0x66, 0xC3, 0xA9]⟩ :=
    accepted_iff.mpr ⟨by decide +kernel, by decide +kernel⟩
  exact ⟨by decide +kernel, (attributes_lossless.2.1 _ _ haccepted).1⟩

end Arkiv
