import Mathlib
import Arkiv.Model.Lexer

/-!
# Tokens and their spellings

A token has its spellings: symbols, reserved words in any case, decimal and
hexadecimal literals, quoted text, names. A text that writes tokens with
whitespace between them is read back as these tokens.

## Main definitions

- `Spells` — a token and a text that stands for it
- `Writes` — a list of tokens and a text with whitespace between their spellings
- `lexToken_spelled` — a spelling is read as its token
- `tokenize_of_writes` — a written text is read as its tokens
-/

namespace Arkiv

open ByteString

/-- Tokens of one spelling. -/
def symbolText : Token → Option (List Char)
  | .lParen => some ['(']
  | .rParen => some [')']
  | .and => some ['&', '&']
  | .or => some ['|', '|']
  | .eq => some ['=']
  | .neq => some ['!', '=']
  | .not => some ['!']
  | .star => some ['*']
  | .gt => some ['>']
  | .gte => some ['>', '=']
  | .lt => some ['<']
  | .lte => some ['<', '=']
  | .tilde => some ['~']
  | .notTilde => some ['!', '~']
  | .dollarAll => some ('$' :: "all".toList)
  | .dollarOwner => some ('$' :: "owner".toList)
  | .dollarCreator => some ('$' :: "creator".toList)
  | .dollarKey => some ('$' :: "key".toList)
  | .dollarExpiration => some ('$' :: "expiration".toList)
  | .dollarContentType => some ('$' :: "contentType".toList)
  | .dollarCreatedAtBlock => some ('$' :: "createdAtBlock".toList)
  | _ => none

/-- The reserved words. -/
def reservedWord : Token → Option (List Char)
  | .and => some "and".toList
  | .or => some "or".toList
  | .not => some "not".toList
  | .isIn => some "in".toList
  | _ => none

/-- The number that decimal digits denote. -/
def decimalValue (digits : List Char) : ℕ :=
  digits.foldl (fun acc c => acc * 10 + (c.toNat - '0'.toNat)) 0

/-- Two hexadecimal digits of either case for each byte. -/
inductive HexOf : List Char → Bytes → Prop where
  | nil : HexOf [] []
  | cons {a b : Char} {hi lo : ℕ} {digits : List Char} {bytes : Bytes}
      (ha : hexValue a = some hi) (hb : hexValue b = some lo) (h : HexOf digits bytes) :
      HexOf (a :: b :: digits) (UInt8.ofNat (hi * 16 + lo) :: bytes)

/-- Quotes and backslashes get a backslash. -/
def escaped (s : List Char) : List Char :=
  s.flatMap fun c => if c = '"' ∨ c = '\\' then ['\\', c] else [c]

/-- A name that is no reserved word. -/
structure IsName [UnicodeTables] (s : List Char) : Prop where
  head : ∃ c ∈ s.head?, isIdentStart c = true
  tail : ∀ c ∈ s.tail, isIdentContinue c = true
  free : ∀ t word, reservedWord t = some word → Lexer.eqIgnoreAsciiCase s word = false

/-- The texts that stand for a token. -/
inductive Spells [UnicodeTables] : Token → List Char → Prop where
  | symbol {t : Token} {s : List Char} (h : symbolText t = some s) : Spells t s
  | word {t : Token} {word s : List Char} (h : reservedWord t = some word)
      (hs : Lexer.eqIgnoreAsciiCase s word = true) : Spells t s
  | number {n : UInt64} {digits : List Char} (hne : digits ≠ [])
      (hdigits : ∀ c ∈ digits, c.isDigit = true) (hn : decimalValue digits = n.toNat) :
      Spells (.number n) digits
  | address {a : Address} {x : Char} {digits : List Char} (hx : x = 'x' ∨ x = 'X')
      (h : HexOf digits (addressBytes a)) : Spells (.address a) ('0' :: x :: digits)
  | entityKey {b : B256} {x : Char} {digits : List Char} (hx : x = 'x' ∨ x = 'X')
      (h : HexOf digits (b256Bytes b)) : Spells (.entityKey b) ('0' :: x :: digits)
  | stringLit (s : List Char) : Spells (.stringLit s) ('"' :: (escaped s ++ ['"']))
  | ident {s : List Char} (h : IsName s) : Spells (.ident s) s

/-- Nothing, or whitespace in front. -/
def Separated (s : List Char) : Prop := ∀ c ∈ s.head?, isWhitespace c = true

/-- The spellings of the tokens in turn, with whitespace around and between them. -/
inductive Writes [UnicodeTables] : List Token → List Char → Prop where
  | nil {ws : List Char} (hws : ∀ c ∈ ws, isWhitespace c = true) : Writes [] ws
  | cons {t : Token} {ts : List Token} {ws s rest : List Char}
      (hws : ∀ c ∈ ws, isWhitespace c = true) (hs : Spells t s) (h : Writes ts rest)
      (hrest : Separated rest) : Writes (t :: ts) (ws ++ (s ++ rest))

theorem Separated.head_ne {rest : List Char} (h : Separated rest) {c : Char}
    (hc : isWhitespace c = false) : rest.head? ≠ some c := by
  intro heq
  rw [h c heq] at hc
  exact Bool.noConfusion hc

/-- The number of bytes of a text. -/
def byteSize (s : List Char) : ℕ := (s.map Char.utf8Size).sum

@[simp] theorem byteSize_nil : byteSize [] = 0 := rfl

@[simp] theorem byteSize_cons (c : Char) (s : List Char) :
    byteSize (c :: s) = c.utf8Size + byteSize s := rfl

@[simp] theorem byteSize_append (s t : List Char) : byteSize (s ++ t) = byteSize s + byteSize t := by
  simp [byteSize]

namespace Lexer

variable {p : Char → Bool} {w rest : List Char} {pos : ℕ}

/-- The loop stops where its condition fails first. -/
theorem skipWhile_append (hw : ∀ c ∈ w, p c = true) (hrest : ∀ c ∈ rest.head?, p c = false) :
    skipWhile p pos (w ++ rest) = ⟨pos + byteSize w, rest⟩ := by
  induction w generalizing pos with
  | nil =>
    cases rest with
    | nil => rfl
    | cons c cs => simp [skipWhile, hrest c (by simp)]
  | cons c w ih =>
    obtain ⟨hc, hw⟩ := List.forall_mem_cons.mp hw
    rw [List.cons_append, skipWhile, if_pos hc, ih hw, byteSize_cons, Nat.add_assoc]

theorem takeWhile_append_of_head (hw : ∀ c ∈ w, p c = true)
    (hrest : ∀ c ∈ rest.head?, p c = false) : (w ++ rest).takeWhile p = w := by
  rw [List.takeWhile_append_of_pos hw]
  cases rest with
  | nil => simp
  | cons c cs => simp [hrest c (by simp)]

theorem scan_append (hw : ∀ c ∈ w, p c = true) (hrest : ∀ c ∈ rest.head?, p c = false) :
    scan p ⟨pos, w ++ rest⟩ = (w, ⟨pos + byteSize w, rest⟩) := by
  rw [scan, takeWhile_append_of_head hw hrest, skipWhile_append hw hrest]

@[simp] theorem bumpChar_cons (c : Char) (cs : List Char) :
    bumpChar ⟨pos, c :: cs⟩ = ⟨pos + c.utf8Size, cs⟩ := rfl

end Lexer

section Characters

theorem char_le_iff {a b : Char} : a ≤ b ↔ a.toNat ≤ b.toNat := Iff.rfl

theorem char_lt_iff {a b : Char} : a < b ↔ a.toNat < b.toNat := Iff.rfl

variable {c : Char}

theorem isDigit_iff : c.isDigit = true ↔ 48 ≤ c.toNat ∧ c.toNat ≤ 57 := by
  simp only [Char.isDigit, Bool.and_eq_true, decide_eq_true_eq]
  exact Iff.rfl

theorem isWhitespace_range (h : isWhitespace c = true) : c.toNat ≤ 32 ∨ 127 < c.toNat := by
  simp only [isWhitespace, Bool.or_eq_true, Bool.and_eq_true, decide_eq_true_eq,
    beq_iff_eq] at h
  omega

theorem isDigit_of_whitespace (h : isWhitespace c = true) : c.isDigit = false := by
  have hrange := isWhitespace_range h
  by_contra hd
  have hdigit := isDigit_iff.mp (by simpa using hd)
  omega

theorem hexValue_some {n : ℕ} (h : hexValue c = some n) :
    48 ≤ c.toNat ∧ c.toNat ≤ 102 ∧ n < 16 := by
  rw [hexValue] at h
  simp only [char_le_iff] at h
  split_ifs at h with h1 h2 h3
  all_goals
    have hn := Option.some.inj h
    simp only [Char.reduceToNat] at *
    omega

theorem hexValue_of_whitespace (h : isWhitespace c = true) : hexValue c = none := by
  have hrange := isWhitespace_range h
  by_contra hne
  obtain ⟨n, hn⟩ := Option.ne_none_iff_exists'.mp hne
  have hhex := hexValue_some hn
  omega

variable [UnicodeTables]

theorem isAlphabetic_range (h : isAlphabetic c = true) :
    (97 ≤ c.toNat ∧ c.toNat ≤ 122) ∨ (65 ≤ c.toNat ∧ c.toNat ≤ 90) ∨
      (127 < c.toNat ∧ UnicodeTables.alphabetic c = true) := by
  simp only [isAlphabetic, Bool.or_eq_true, Bool.and_eq_true, decide_eq_true_eq, char_le_iff,
    char_lt_iff] at h
  simpa [or_assoc] using h

theorem isIdentStart_range (h : isIdentStart c = true) :
    (97 ≤ c.toNat ∧ c.toNat ≤ 122) ∨ (65 ≤ c.toNat ∧ c.toNat ≤ 90) ∨ c.toNat = 95 ∨
      (127 < c.toNat ∧ UnicodeTables.alphabetic c = true) := by
  simp only [isIdentStart, Bool.or_eq_true, beq_iff_eq] at h
  rcases h with h | rfl
  · have hrange := isAlphabetic_range h
    tauto
  · exact .inr (.inr (.inl rfl))

theorem isIdentContinue_range (h : isIdentContinue c = true) :
    (97 ≤ c.toNat ∧ c.toNat ≤ 122) ∨ (65 ≤ c.toNat ∧ c.toNat ≤ 90) ∨ c.toNat = 95 ∨
      (48 ≤ c.toNat ∧ c.toNat ≤ 57) ∨
      (127 < c.toNat ∧ (UnicodeTables.alphabetic c = true ∨ UnicodeTables.numeric c = true)) := by
  simp only [isIdentContinue, isAlphanumeric, Bool.or_eq_true, beq_iff_eq, Bool.and_eq_true,
    decide_eq_true_eq, char_lt_iff] at h
  rcases h with ((h | h) | h) | rfl
  · have hrange := isAlphabetic_range h
    tauto
  · have hdigit := isDigit_iff.mp h
    tauto
  · exact .inr (.inr (.inr (.inr ⟨h.1, .inr h.2⟩)))
  · exact .inr (.inr (.inl rfl))

/-- A name ends where whitespace starts. -/
theorem isIdentContinue_of_whitespace (h : isWhitespace c = true) : isIdentContinue c = false := by
  by_contra hc
  obtain ⟨halpha, hnum⟩ := UnicodeTables.not_whitespace c h
  have hrange := isWhitespace_range h
  rcases isIdentContinue_range (by simpa using hc) with h | h | h | h | ⟨-, h⟩
  · omega
  · omega
  · omega
  · omega
  · simp [halpha, hnum] at h

theorem isIdentContinue_of_start (h : isIdentStart c = true) : isIdentContinue c = true := by
  simp only [isIdentStart, Bool.or_eq_true] at h
  simp only [isIdentContinue, isAlphanumeric, Bool.or_eq_true]
  tauto

theorem isIdentStart_letter (h : (97 ≤ c.toNat ∧ c.toNat ≤ 122) ∨ (65 ≤ c.toNat ∧ c.toNat ≤ 90)) :
    isIdentStart c = true := by
  simp only [isIdentStart, isAlphabetic, Bool.or_eq_true, Bool.and_eq_true, decide_eq_true_eq,
    char_le_iff, Char.reduceToNat]
  tauto

theorem isIdentStart_not_whitespace (h : isIdentStart c = true) : isWhitespace c = false := by
  by_contra hw
  have hno := isIdentContinue_of_whitespace (c := c) (by simpa using hw)
  rw [isIdentContinue_of_start h] at hno
  exact Bool.noConfusion hno

end Characters

theorem HexOf.hexPairs {digits : List Char} {bytes : Bytes} (h : HexOf digits bytes) :
    hexPairs digits = some bytes := by
  induction h with
  | nil => rfl
  | cons ha hb h ih => simp [Arkiv.hexPairs, ha, hb, ih]

theorem HexOf.length {digits : List Char} {bytes : Bytes} (h : HexOf digits bytes) :
    digits.length = 2 * bytes.length := by
  induction h with
  | nil => rfl
  | cons ha hb h ih =>
    simp only [List.length_cons, ih]
    omega

theorem HexOf.isHex {digits : List Char} {bytes : Bytes} (h : HexOf digits bytes) :
    ∀ c ∈ digits, (hexValue c).isSome = true := by
  induction h with
  | nil => simp
  | cons ha hb h ih =>
    simp only [List.forall_mem_cons, ha, hb, Option.isSome_some, true_and]
    exact ih

/-- ASCII characters are bytes. -/
theorem utf8Bytes_length_ascii {s : List Char} (h : ∀ c ∈ s, c.toNat ≤ 127) :
    (utf8Bytes s).length = s.length := by
  induction s with
  | nil => rfl
  | cons c cs ih =>
    obtain ⟨hc, hcs⟩ := List.forall_mem_cons.mp h
    have hone : (String.utf8EncodeChar c).length = 1 := by
      rw [String.length_utf8EncodeChar]
      exact Char.utf8Size_eq_one_iff.mpr (UInt32.le_iff_toNat_le.mpr hc)
    rw [utf8Bytes, List.flatMap_cons, List.length_append, hone, List.length_cons]
    have := ih hcs
    rw [utf8Bytes] at this
    omega

theorem HexOf.hexDecode {digits : List Char} {bytes : Bytes} (h : HexOf digits bytes) :
    hexDecode digits = some bytes := by
  have hascii : ∀ c ∈ digits, c.toNat ≤ 127 := by
    intro c hc
    obtain ⟨n, hn⟩ := Option.isSome_iff_exists.mp (h.isHex c hc)
    have := hexValue_some hn
    omega
  have heven : ¬(utf8Bytes digits).length % 2 = 1 := by
    rw [utf8Bytes_length_ascii hascii, h.length]
    omega
  unfold Arkiv.hexDecode
  rw [if_neg heven]
  split
  · exact absurd (h.isHex 'x' (by simp)) (by decide)
  · exact h.hexPairs

/-- The characters that the lexer reads as symbols, quotes and built-ins. -/
def marks : List Char := ['(', ')', '*', '=', '&', '|', '!', '>', '<', '~', '"', '$']

theorem marks_range {c : Char} (h : c ∈ marks) :
    c.toNat ≤ 64 ∧ ¬(48 ≤ c.toNat ∧ c.toNat ≤ 57) ∨ 123 ≤ c.toNat ∧ c.toNat ≤ 127 := by
  simp only [marks, List.mem_cons, List.not_mem_nil, or_false] at h
  rcases h with rfl | rfl | rfl | rfl | rfl | rfl | rfl | rfl | rfl | rfl | rfl | rfl
  all_goals decide

namespace Lexer

variable [UnicodeTables] {l : Lexer} {c : Char} {s rest : List Char} {pos : ℕ}

/-- A name or a reserved word. -/
theorem lexToken_start (h : isIdentStart c = true) :
    lexToken l c = .ok l.lexIdentOrKeyword := by
  have hne : ∀ d ∈ marks, c ≠ d := by
    rintro d hd rfl
    have hmark := marks_range hd
    have hrange := isIdentStart_range h
    omega
  have hdigit : c.isDigit = false := by
    by_contra hd
    have hd := isDigit_iff.mp (by simpa using hd)
    have hrange := isIdentStart_range h
    omega
  simp only [marks, List.forall_mem_cons] at hne
  simp [lexToken, hne, hdigit, h]

/-- A number or a hex literal. -/
theorem lexToken_digit (h : c.isDigit = true) : lexToken l c = l.lexNumberOrHex := by
  have hne : ∀ d ∈ marks, c ≠ d := by
    rintro d hd rfl
    have hmark := marks_range hd
    have hrange := isDigit_iff.mp h
    omega
  simp only [marks, List.forall_mem_cons] at hne
  simp [lexToken, hne, h]

theorem scan_ident (hs : ∀ c ∈ s, isIdentContinue c = true) (hrest : Separated rest) :
    scan isIdentContinue ⟨pos, s ++ rest⟩ = (s, ⟨pos + byteSize s, rest⟩) :=
  scan_append hs fun c hc => isIdentContinue_of_whitespace (hrest c hc)

/-- A built-in. -/
theorem lexToken_dollar {name : List Char} {t : Token} (ht : builtInToken name = some t)
    (hname : ∀ c ∈ name, isIdentContinue c = true) (hrest : Separated rest) :
    lexToken ⟨pos, '$' :: name ++ rest⟩ '$' = .ok (t, ⟨pos + byteSize ('$' :: name), rest⟩) := by
  have hscan := @scan_ident _ name rest (pos + '$'.utf8Size) hname hrest
  simp [lexToken, lexDollarIdent, hscan, ht, Nat.add_assoc]

omit [UnicodeTables] in
/-- One character and whitespace, where two characters would be another token. -/
theorem lexPrefix_single (c second : Char) (first both : Token)
    (hsecond : isWhitespace second = false) (hrest : Separated rest) :
    lexPrefix ⟨pos, c :: rest⟩ second first both = (first, ⟨pos + c.utf8Size, rest⟩) := by
  rw [lexPrefix, bumpChar_cons, if_neg (hrest.head_ne hsecond)]

/-- What reading a spelling means: its token, and the rest of the text. -/
def ReadsAs (t : Token) (s : List Char) : Prop :=
  ∃ c cs, s = c :: cs ∧ isWhitespace c = false ∧ ∀ pos rest, Separated rest →
    lexToken ⟨pos, s ++ rest⟩ c = .ok (t, ⟨pos + byteSize s, rest⟩)

theorem readsAs_dollar {name : List Char} {t : Token} (ht : builtInToken name = some t)
    (hname : ∀ c ∈ name, (97 ≤ c.toNat ∧ c.toNat ≤ 122) ∨ (65 ≤ c.toNat ∧ c.toNat ≤ 90)) :
    ReadsAs t ('$' :: name) := by
  refine ⟨'$', name, rfl, by decide, fun pos rest hrest => lexToken_dollar ht (fun c hc => ?_) hrest⟩
  exact isIdentContinue_of_start (isIdentStart_letter (hname c hc))

theorem readsAs_symbol {t : Token} (h : symbolText t = some s) : ReadsAs t s := by
  have hletters : ∀ name ∈ ["all", "owner", "creator", "key", "expiration", "contentType",
      "createdAtBlock"], ∀ c ∈ name.toList,
      (97 ≤ c.toNat ∧ c.toNat ≤ 122) ∨ (65 ≤ c.toNat ∧ c.toNat ≤ 90) := by simp
  cases t <;> simp only [symbolText, reduceCtorEq, Option.some.injEq] at h <;> subst h
  case dollarAll => exact readsAs_dollar rfl (hletters "all" (by simp))
  case dollarOwner => exact readsAs_dollar rfl (hletters "owner" (by simp))
  case dollarCreator => exact readsAs_dollar rfl (hletters "creator" (by simp))
  case dollarKey => exact readsAs_dollar rfl (hletters "key" (by simp))
  case dollarExpiration => exact readsAs_dollar rfl (hletters "expiration" (by simp))
  case dollarContentType => exact readsAs_dollar rfl (hletters "contentType" (by simp))
  case dollarCreatedAtBlock => exact readsAs_dollar rfl (hletters "createdAtBlock" (by simp))
  all_goals
    refine ⟨_, _, rfl, by decide, fun pos rest hrest => ?_⟩
  case not =>
    have h₁ := hrest.head_ne (show isWhitespace '=' = false by decide)
    have h₂ := @lexPrefix_single rest pos '!' '~' .not .notTilde (by decide) hrest
    simp [lexToken, h₁, h₂]
  case gt =>
    have h₂ := @lexPrefix_single rest pos '>' '=' .gt .gte (by decide) hrest
    simp [lexToken, h₂]
  case lt =>
    have h₂ := @lexPrefix_single rest pos '<' '=' .lt .lte (by decide) hrest
    simp [lexToken, h₂]
  all_goals simp [lexToken, expectPair, lexPrefix, Nat.add_assoc]

/-- Names and reserved words are read up to whitespace. -/
theorem readsAs_word (hhead : ∃ c ∈ s.head?, isIdentStart c = true)
    (htail : ∀ c ∈ s.tail, isIdentContinue c = true) : ReadsAs (wordToken s) s := by
  obtain ⟨c, hc, hstart⟩ := hhead
  cases s with
  | nil => simp at hc
  | cons d cs =>
    obtain rfl := Option.some.inj hc
    refine ⟨d, cs, rfl, isIdentStart_not_whitespace hstart, fun pos rest hrest => ?_⟩
    have hall : ∀ e ∈ d :: cs, isIdentContinue e = true :=
      List.forall_mem_cons.mpr ⟨isIdentContinue_of_start hstart, htail⟩
    rw [lexToken_start hstart, lexIdentOrKeyword, scan_ident hall hrest]

omit [UnicodeTables] in
theorem eqIgnoreAsciiCase_iff {t : List Char} :
    eqIgnoreAsciiCase s t = true ↔ s.map Char.toLower = t.map Char.toLower := decide_eq_true_iff

omit [UnicodeTables] in
/-- A reserved word is its token in every case. -/
theorem wordToken_of_reserved {t : Token} {word : List Char} (h : reservedWord t = some word)
    (hs : eqIgnoreAsciiCase s word = true) : wordToken s = t := by
  rw [eqIgnoreAsciiCase_iff] at hs
  cases t <;> simp only [reservedWord, reduceCtorEq, Option.some.injEq] at h
  all_goals
    subst h
    rw [wordToken, eqIgnoreAsciiCase, eqIgnoreAsciiCase, eqIgnoreAsciiCase, eqIgnoreAsciiCase, hs]
    simp

/-- A name that is not reserved is itself. -/
theorem wordToken_of_name (h : IsName s) : wordToken s = .ident s := by
  have hand := h.free .and _ rfl
  have hor := h.free .or _ rfl
  have hnot := h.free .not _ rfl
  have hin := h.free .isIn _ rfl
  rw [wordToken, hand, hor, hnot, hin]
  rfl

omit [UnicodeTables] in
theorem letter_of_toLower {c : Char} (h : 97 ≤ c.toLower.toNat ∧ c.toLower.toNat ≤ 122) :
    (97 ≤ c.toNat ∧ c.toNat ≤ 122) ∨ (65 ≤ c.toNat ∧ c.toNat ≤ 90) := by
  rw [Char.toLower] at h
  split at h
  · next hupper =>
    right
    exact hupper
  · exact .inl h

omit [UnicodeTables] in
/-- The characters of a reserved word in any case are letters. -/
theorem letters_of_reserved {t : Token} {word : List Char} (h : reservedWord t = some word)
    (hs : eqIgnoreAsciiCase s word = true) :
    s ≠ [] ∧ ∀ c ∈ s, (97 ≤ c.toNat ∧ c.toNat ≤ 122) ∨ (65 ≤ c.toNat ∧ c.toNat ≤ 90) := by
  rw [eqIgnoreAsciiCase_iff] at hs
  have hword : word.map Char.toLower ≠ [] ∧
      ∀ c ∈ word.map Char.toLower, 97 ≤ c.toNat ∧ c.toNat ≤ 122 := by
    cases t <;> simp only [reservedWord, reduceCtorEq, Option.some.injEq] at h
    all_goals
      subst h
      simp
  rw [← hs] at hword
  refine ⟨fun hnil => hword.1 (by rw [hnil]; rfl), fun c hc => ?_⟩
  exact letter_of_toLower (hword.2 _ (List.mem_map_of_mem hc))

theorem readsAs_reserved {t : Token} {word : List Char} (h : reservedWord t = some word)
    (hs : eqIgnoreAsciiCase s word = true) : ReadsAs t s := by
  obtain ⟨hne, hletters⟩ := letters_of_reserved h hs
  rw [← wordToken_of_reserved h hs]
  refine readsAs_word ?_ fun c hc => ?_
  · cases s with
    | nil => exact absurd rfl hne
    | cons c cs => exact ⟨c, rfl, isIdentStart_letter (hletters c List.mem_cons_self)⟩
  · exact isIdentContinue_of_start (isIdentStart_letter (hletters c (List.mem_of_mem_tail hc)))

omit [UnicodeTables] in
theorem le_foldl_digits (digits : List Char) (acc : ℕ) :
    acc ≤ digits.foldl (fun acc c => acc * 10 + (c.toNat - '0'.toNat)) acc := by
  induction digits generalizing acc with
  | nil => exact le_rfl
  | cons c cs ih =>
    refine le_trans ?_ (ih _)
    show acc ≤ acc * 10 + (c.toNat - '0'.toNat)
    omega

omit [UnicodeTables] in
/-- No prefix of the digits overflows when the number does not. -/
theorem foldlM_pushDigit {digits : List Char} (hdigits : ∀ c ∈ digits, c.isDigit = true) {acc n : ℕ}
    (hn : digits.foldl (fun acc c => acc * 10 + (c.toNat - '0'.toNat)) acc = n) (hlt : n < 2 ^ 64) :
    digits.foldlM pushDigit acc = some n := by
  induction digits generalizing acc with
  | nil =>
    rw [← hn]
    rfl
  | cons c cs ih =>
    obtain ⟨hc, hcs⟩ := List.forall_mem_cons.mp hdigits
    have hle := le_foldl_digits cs (acc * 10 + (c.toNat - '0'.toNat))
    rw [List.foldl_cons] at hn
    have hpush : pushDigit acc c = some (acc * 10 + (c.toNat - '0'.toNat)) := by
      rw [pushDigit, if_pos hc, if_pos (by omega)]
    rw [List.foldlM_cons, hpush]
    exact ih hcs hn

omit [UnicodeTables] in
theorem u64FromDecimal_eq {digits : List Char} (hne : digits ≠ [])
    (hdigits : ∀ c ∈ digits, c.isDigit = true) {n : UInt64} (hn : decimalValue digits = n.toNat) :
    u64FromDecimal digits = some n := by
  rw [u64FromDecimal, if_neg hne, foldlM_pushDigit hdigits hn n.toNat_lt, Option.map_some,
    UInt64.ofNat_toNat]

omit [UnicodeTables] in
theorem startsWithHexPrefix_iff :
    startsWithHexPrefix s = true ↔ ∃ x cs, s = '0' :: x :: cs ∧ (x = 'x' ∨ x = 'X') := by
  constructor
  · intro h
    unfold startsWithHexPrefix at h
    split at h
    · exact ⟨_, _, rfl, .inl rfl⟩
    · exact ⟨_, _, rfl, .inr rfl⟩
    · exact absurd h Bool.false_ne_true
  · rintro ⟨x, cs, rfl, rfl | rfl⟩ <;> rfl

omit [UnicodeTables] in
/-- Decimal digits up to whitespace are no hex literal. -/
theorem startsWithHexPrefix_digits (hs : ∀ c ∈ s, c.isDigit = true) (hrest : Separated rest) :
    startsWithHexPrefix (s ++ rest) = false := by
  by_contra h
  obtain ⟨x, cs, heq, hx⟩ := startsWithHexPrefix_iff.mp (by simpa using h)
  have hdigit : x.isDigit = false := by rcases hx with rfl | rfl <;> rfl
  have hspace : isWhitespace x = false := by rcases hx with rfl | rfl <;> decide
  match s, hs with
  | [], _ =>
    rw [List.nil_append] at heq
    exact hrest.head_ne (c := '0') (by decide) (by rw [heq]; rfl)
  | [d], _ =>
    simp only [List.cons_append, List.nil_append, List.cons.injEq] at heq
    exact hrest.head_ne hspace (by rw [heq.2]; rfl)
  | d :: e :: ds, hs =>
    simp only [List.cons_append, List.cons.injEq] at heq
    have he := hs e (by simp)
    rw [heq.2.1, hdigit] at he
    exact Bool.false_ne_true he

theorem readsAs_number {n : UInt64} (hne : s ≠ []) (hs : ∀ c ∈ s, c.isDigit = true)
    (hn : decimalValue s = n.toNat) : ReadsAs (.number n) s := by
  obtain ⟨c, cs, rfl⟩ := List.exists_cons_of_ne_nil hne
  have hc := hs c List.mem_cons_self
  refine ⟨c, cs, rfl, ?_, fun pos rest hrest => ?_⟩
  · by_contra hw
    rw [isDigit_of_whitespace (by simpa using hw)] at hc
    exact Bool.false_ne_true hc
  · have hscan := @scan_append Char.isDigit (c :: cs) rest pos hs
      fun d hd => isDigit_of_whitespace (hrest d hd)
    rw [lexToken_digit hc, lexNumberOrHex,
      if_neg (by rw [startsWithHexPrefix_digits hs hrest]; exact Bool.false_ne_true), hscan]
    simp only [u64FromDecimal_eq hne hs hn]

/-- A hex literal is typed by its length. -/
theorem lexToken_hex {x : Char} (hx : x = 'x' ∨ x = 'X') {digits : List Char} {bytes : Bytes}
    (h : HexOf digits bytes) (hrest : Separated rest) :
    lexToken ⟨pos, '0' :: x :: digits ++ rest⟩ '0' =
      if digits.length = 40 then
        .ok (.address (BitVec.ofNat 160 (ofBe bytes)), ⟨pos + byteSize ('0' :: x :: digits), rest⟩)
      else if digits.length = 64 then
        .ok (.entityKey (BitVec.ofNat 256 (ofBe bytes)), ⟨pos + byteSize ('0' :: x :: digits), rest⟩)
      else .error (.hexLength pos digits.length) := by
  have hprefix : startsWithHexPrefix ('0' :: x :: (digits ++ rest)) = true :=
    startsWithHexPrefix_iff.mpr ⟨x, _, rfl, hx⟩
  have hscan := @scan_append (fun c => (hexValue c).isSome) digits rest (pos + 2) h.isHex
    fun c hc => by rw [hexValue_of_whitespace (hrest c hc)]; rfl
  have hsize : pos + byteSize ('0' :: x :: digits) = pos + 2 + byteSize digits := by
    have hxsize : x.utf8Size = 1 := by rcases hx with rfl | rfl <;> rfl
    rw [byteSize_cons, byteSize_cons, hxsize, show '0'.utf8Size = 1 from rfl]
    omega
  rw [lexToken_digit (by decide), lexNumberOrHex, List.cons_append, List.cons_append,
    if_pos hprefix, hsize]
  show lexHex pos ⟨pos + 2, digits ++ rest⟩ = _
  simp only [lexHex, hscan, h.hexDecode]

theorem readsAs_address {a : Address} {x : Char} (hx : x = 'x' ∨ x = 'X') {digits : List Char}
    (h : HexOf digits (addressBytes a)) : ReadsAs (.address a) ('0' :: x :: digits) := by
  refine ⟨'0', x :: digits, rfl, by decide, fun pos rest hrest => ?_⟩
  have hlength : digits.length = 40 := by rw [h.length, addressBytes_length]
  rw [lexToken_hex hx h hrest, if_pos hlength, ofNat_ofBe_addressBytes]

theorem readsAs_entityKey {b : B256} {x : Char} (hx : x = 'x' ∨ x = 'X') {digits : List Char}
    (h : HexOf digits (b256Bytes b)) : ReadsAs (.entityKey b) ('0' :: x :: digits) := by
  refine ⟨'0', x :: digits, rfl, by decide, fun pos rest hrest => ?_⟩
  have hlength : digits.length = 64 := by rw [h.length, b256Bytes_length]
  rw [lexToken_hex hx h hrest, if_neg (by omega), if_pos hlength, ofNat_ofBe_b256Bytes]

omit [UnicodeTables] in
/-- The loop reads escaped text back, up to the closing quote. -/
theorem lexStringBody_escaped (s : List Char) (start : ℕ) (out : List Char) (pos : ℕ)
    (rest : List Char) :
    lexStringBody start out pos (escaped s ++ '"' :: rest) =
      .ok (.stringLit (out ++ s), ⟨pos + byteSize (escaped s) + 1, rest⟩) := by
  induction s generalizing out pos with
  | nil =>
    rw [List.append_nil]
    show lexStringBody start out pos ('"' :: rest) = .ok (.stringLit out, ⟨pos + 1, rest⟩)
    unfold lexStringBody
    exact if_pos rfl
  | cons c cs ih =>
    have htail : ∀ pos', lexStringBody start (out ++ [c]) pos' (escaped cs ++ '"' :: rest) =
        .ok (.stringLit (out ++ c :: cs), ⟨pos' + byteSize (escaped cs) + 1, rest⟩) := by
      intro pos'
      rw [ih, List.append_assoc]
      rfl
    by_cases hc : c = '"' ∨ c = '\\'
    · have hescaped : escaped (c :: cs) = '\\' :: c :: escaped cs := by
        rw [escaped, List.flatMap_cons, if_pos hc]
        rfl
      have hunescape : unescape c = some c := by rcases hc with rfl | rfl <;> rfl
      rw [hescaped]
      unfold lexStringBody
      rw [List.cons_append, List.cons_append]
      simp only [Char.reduceEq, if_false, if_true, hunescape, htail, byteSize_cons]
      simp only [Nat.add_assoc]
    · obtain ⟨hquote, hslash⟩ := not_or.mp hc
      have hescaped : escaped (c :: cs) = c :: escaped cs := by
        rw [escaped, List.flatMap_cons, if_neg hc]
        rfl
      rw [hescaped]
      unfold lexStringBody
      rw [List.cons_append]
      simp only [if_neg hquote, if_neg hslash, htail, byteSize_cons, Nat.add_assoc]

theorem readsAs_stringLit (s : List Char) :
    ReadsAs (.stringLit s) ('"' :: (escaped s ++ ['"'])) := by
  refine ⟨'"', _, rfl, by decide, fun pos rest _ => ?_⟩
  have hbody := lexStringBody_escaped s pos [] (pos + '"'.utf8Size) rest
  have hsize : pos + byteSize ('"' :: (escaped s ++ ['"'])) =
      pos + '"'.utf8Size + byteSize (escaped s) + 1 := by
    rw [byteSize_cons, byteSize_append, byteSize_cons, byteSize_nil,
      show '"'.utf8Size = 1 from rfl]
    omega
  rw [hsize, List.cons_append, List.append_assoc]
  simpa [lexToken, lexString] using hbody

/-- **Every spelling is read as its token.** -/
theorem readsAs_spelled {t : Token} (h : Spells t s) : ReadsAs t s := by
  cases h with
  | symbol h => exact readsAs_symbol h
  | word h hs => exact readsAs_reserved h hs
  | number hne hdigits hn => exact readsAs_number hne hdigits hn
  | address hx h => exact readsAs_address hx h
  | entityKey hx h => exact readsAs_entityKey hx h
  | stringLit s => exact readsAs_stringLit s
  | ident h =>
    rw [← wordToken_of_name h]
    exact readsAs_word h.head h.tail

/-- One token after whitespace. -/
theorem nextToken_of_readsAs {t : Token} {ws : List Char} (h : ReadsAs t s)
    (hws : ∀ c ∈ ws, isWhitespace c = true) (hrest : Separated rest) :
    nextToken ⟨pos, ws ++ (s ++ rest)⟩ =
      .ok (some (t, ⟨pos + byteSize ws + byteSize s, rest⟩)) := by
  obtain ⟨c, cs, rfl, hc, hread⟩ := h
  have hskip : skipWhitespace ⟨pos, ws ++ (c :: cs ++ rest)⟩ =
      ⟨pos + byteSize ws, c :: cs ++ rest⟩ := by
    rw [skipWhitespace, skipWhile_append hws]
    intro d hd
    rwa [← Option.some.inj hd]
  rw [nextToken, hskip]
  show (lexToken ⟨pos + byteSize ws, c :: cs ++ rest⟩ c).map some = _
  rw [hread (pos + byteSize ws) rest hrest]
  rfl

theorem nextToken_of_whitespace {ws : List Char} (hws : ∀ c ∈ ws, isWhitespace c = true) :
    nextToken ⟨pos, ws⟩ = .ok none := by
  have hskip : skipWhitespace ⟨pos, ws⟩ = ⟨pos + byteSize ws, []⟩ := by
    have h := @skipWhile_append isWhitespace ws [] pos hws (by simp)
    rwa [List.append_nil] at h
  rw [nextToken, hskip]

/-- The loop reads one spelling in each round. -/
theorem tokens_of_writes {ts : List Token} {text : List Char} (h : Writes ts text) :
    ∀ {pos rounds : ℕ}, text.length < rounds → tokens rounds ⟨pos, text⟩ = .ok ts := by
  induction h with
  | nil hws =>
    intro pos rounds hrounds
    obtain ⟨rounds, rfl⟩ := Nat.exists_eq_succ_of_ne_zero (Nat.ne_zero_of_lt hrounds)
    rw [tokens, nextToken_of_whitespace hws]
    rfl
  | cons hws hs h hrest ih =>
    intro pos rounds hrounds
    obtain ⟨rounds, rfl⟩ := Nat.exists_eq_succ_of_ne_zero (Nat.ne_zero_of_lt hrounds)
    obtain ⟨c, cs, heq, -⟩ := readsAs_spelled hs
    have hlength := congrArg List.length heq
    simp only [List.length_append, List.length_cons] at hrounds hlength
    rw [tokens, nextToken_of_readsAs (readsAs_spelled hs) hws hrest]
    show (tokens rounds _ >>= _) = _
    rw [ih (by omega)]
    rfl

end Lexer

theorem digitChar_lt_ten {d : ℕ} (h : d < 10) :
    (Nat.digitChar d).isDigit = true ∧ (Nat.digitChar d).toNat - '0'.toNat = d := by
  interval_cases d <;> decide

theorem isDigit_decimalDigits {n : ℕ} {c : Char} (hc : c ∈ decimalDigits n) : c.isDigit = true := by
  rw [decimalDigits] at hc
  split at hc
  · rw [List.mem_singleton.mp hc]
    rfl
  · obtain ⟨d, hd, rfl⟩ := List.mem_map.mp (List.mem_reverse.mp hc)
    exact (digitChar_lt_ten (Nat.digits_lt_base (by omega) hd)).1

theorem decimalDigits_ne_nil (n : ℕ) : decimalDigits n ≠ [] := by
  rw [decimalDigits]
  split
  · simp
  · next hn => simpa [Nat.digits_eq_nil_iff_eq_zero] using hn

theorem decimalValue_decimalDigits (n : ℕ) : decimalValue (decimalDigits n) = n := by
  have hdigits : ∀ ds : List ℕ, (∀ d ∈ ds, d < 10) →
      decimalValue (ds.map Nat.digitChar).reverse = Nat.ofDigits 10 ds := by
    intro ds hds
    induction ds with
    | nil => rfl
    | cons d ds ih =>
      obtain ⟨hd, hds⟩ := List.forall_mem_cons.mp hds
      rw [List.map_cons, List.reverse_cons, decimalValue, List.foldl_append, ← decimalValue, ih hds,
        Nat.ofDigits_cons]
      show Nat.ofDigits 10 ds * 10 + ((Nat.digitChar d).toNat - '0'.toNat) = _
      rw [(digitChar_lt_ten hd).2, Nat.mul_comm, Nat.add_comm]
  rw [decimalDigits]
  split
  · next h => rw [h]; rfl
  · rw [hdigits _ fun d hd => Nat.digits_lt_base (by omega) hd, Nat.ofDigits_digits]

/-- Two digits for each byte. -/
theorem hexOf_digits (bytes : Bytes) :
    HexOf (bytes.flatMap fun b => [Nat.digitChar (b.toNat / 16), Nat.digitChar (b.toNat % 16)])
      bytes := by
  induction bytes with
  | nil => exact .nil
  | cons b bytes ih =>
    have hvalue : ∀ d < 16, hexValue (Nat.digitChar d) = some d := by decide
    have hb := b.toNat_lt
    have hcons := HexOf.cons (hvalue (b.toNat / 16) (by omega)) (hvalue (b.toNat % 16) (by omega)) ih
    rwa [show b.toNat / 16 * 16 + b.toNat % 16 = b.toNat by omega, UInt8.ofNat_toNat] at hcons

theorem exists_hexOf (bytes : Bytes) : ∃ digits, HexOf digits bytes := ⟨_, hexOf_digits bytes⟩

theorem spells_decimalDigits [UnicodeTables] (n : UInt64) :
    Spells (.number n) (decimalDigits n.toNat) :=
  .number (decimalDigits_ne_nil _) (fun _ => isDigit_decimalDigits) (decimalValue_decimalDigits _)

/-- Every token has a spelling, names as long as they are names. -/
theorem exists_spells [UnicodeTables] (t : Token) (h : ∀ s, t = .ident s → IsName s) :
    ∃ s, Spells t s := by
  cases t with
  | entityKey b =>
    obtain ⟨digits, hd⟩ := exists_hexOf (b256Bytes b)
    exact ⟨_, .entityKey (.inl rfl) hd⟩
  | address a =>
    obtain ⟨digits, hd⟩ := exists_hexOf (addressBytes a)
    exact ⟨_, .address (.inl rfl) hd⟩
  | stringLit s => exact ⟨_, .stringLit s⟩
  | number n => exact ⟨_, spells_decimalDigits n⟩
  | ident s => exact ⟨s, .ident (h s rfl)⟩
  | isIn =>
    refine ⟨"in".toList, .word rfl ?_⟩
    exact Lexer.eqIgnoreAsciiCase_iff.mpr rfl
  | _ => exact ⟨_, .symbol rfl⟩

/-- **Lexing undoes printing**: a text that writes tokens, each in one of its spellings and with
    whitespace between them, is read as these tokens. -/
theorem tokenize_of_writes [UnicodeTables] {ts : List Token} {text : List Char}
    (h : Writes ts text) : tokenize text = .ok ts :=
  Lexer.tokens_of_writes h (Nat.lt_succ_self _)

/-- The letters and numbers of the Latin-1 block. -/
@[reducible] def latinTables : UnicodeTables where
  alphabetic c := c.toNat = 0xAA || c.toNat = 0xB5 || c.toNat = 0xBA ||
    (0xC0 ≤ c.toNat && c.toNat ≤ 0xFF && c.toNat ≠ 0xD7 && c.toNat ≠ 0xF7)
  numeric c := c.toNat = 0xB2 || c.toNat = 0xB3 || c.toNat = 0xB9 ||
    (0xBC ≤ c.toNat && c.toNat ≤ 0xBE)
  not_whitespace c h := by
    simp only [isWhitespace, Bool.or_eq_true, Bool.and_eq_true, decide_eq_true_eq,
      beq_iff_eq] at h
    simp only [Bool.or_eq_false_iff, Bool.and_eq_false_iff, decide_eq_false_iff_not]
    omega

/-- A name with a letter above ASCII, an operator of two characters and an escaped quote. -/
theorem tokenize_of_writes_sample :
    @tokenize latinTables ['c', 'a', 'f', 'é', '\t', '!', '~', ' ', '"', '\\', '"', '*', '"'] =
      .ok [.ident ['c', 'a', 'f', 'é'], .notTilde, .stringLit ['"', '*']] := by
  let _ := latinTables
  have hname : IsName ['c', 'a', 'f', 'é'] := by
    refine ⟨⟨'c', rfl, by decide⟩, List.all_eq_true.mp (by decide), fun t word h => ?_⟩
    cases t <;> simp only [reservedWord, reduceCtorEq, Option.some.injEq] at h
    all_goals
      subst h
      decide
  have hlit : Writes [.stringLit ['"', '*']]
      ([' '] ++ ('"' :: (escaped ['"', '*'] ++ ['"']) ++ [])) :=
    .cons (List.all_eq_true.mp (by decide)) (.stringLit _) (.nil (by simp)) (by simp [Separated])
  have hop : Writes [.notTilde, .stringLit ['"', '*']]
      (['\t'] ++ (['!', '~'] ++ ([' '] ++ ('"' :: (escaped ['"', '*'] ++ ['"']) ++ [])))) :=
    .cons (List.all_eq_true.mp (by decide)) (.symbol rfl) hlit fun c hc => by
      obtain rfl := Option.some.inj hc
      decide
  exact tokenize_of_writes (@Writes.cons _ _ _ [] _ _ (by simp) (.ident hname) hop fun c hc => by
    obtain rfl := Option.some.inj hc
    decide)

end Arkiv
