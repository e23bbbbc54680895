import Mathlib
import Arkiv.Lib.Keccak
import Arkiv.Query.Grammar
import Arkiv.Query.Spelling
import Arkiv.Registry.Attributes

/-!
# Attribute names in queries

A name that the precompile accepts is stored as its bytes. A query names it by
its text, as long as the lexer reads that text as one identifier.

## Main definitions

- `asciiText` — bytes as text
- `Queryable` — the name is one token, and equality queries on it read its pairs
- `queryable_iff` — the accepted names that are queryable
-/

namespace Arkiv

open ByteString

/-- Bytes read as ASCII. -/
def asciiText (bs : Bytes) : List Char := bs.map fun b => Char.ofNat b.toNat

/-- The text of an equality. -/
def equalityText (key literal : List Char) : List Char := key ++ (' ' :: '=' :: ' ' :: literal)

/-- The lexer reads the name as one identifier, and an equality on it reads the pair accounts that
    an attribute of this name is posted to. -/
structure Queryable [Keccak] [UnicodeTables] (name : B256) : Prop where
  token : tokenize (asciiText (ident32ToBytes name)) = .ok [.ident (asciiText (ident32ToBytes name))]
  query : ∀ t lit literal v, literalOf t = .ok lit → Spells t literal →
    encodeForKey (.user (ident32ToBytes name)) lit = .ok v →
    ∃ key, parse (equalityText (asciiText (ident32ToBytes name)) literal) = .ok (.eq key v) ∧
      key.pairKeyBytes = ident32ToBytes name ∧
      pairAddress key.pairKeyBytes v = pairAddress (ident32ToBytes name) v

section Ascii

theorem toNat_asciiChar (b : UInt8) : (Char.ofNat b.toNat).toNat = b.toNat := by
  have hb := b.toNat_lt
  rw [Char.toNat_ofNat, if_pos]
  exact .inl (by omega)

theorem utf8EncodeChar_ascii {c : Char} (h : c.toNat ≤ 127) :
    String.utf8EncodeChar c = [UInt8.ofNat c.toNat] := by
  have hsize : c.utf8Size = 1 := Char.utf8Size_eq_one_iff.mpr (UInt32.le_iff_toNat_le.mpr h)
  rw [String.utf8EncodeChar_eq_singleton hsize]
  rfl

/-- ASCII text has the bytes that it was read from. -/
theorem utf8Bytes_asciiText {bs : Bytes} (h : ∀ b ∈ bs, b.toNat ≤ 127) :
    utf8Bytes (asciiText bs) = bs := by
  induction bs with
  | nil => rfl
  | cons b bs ih =>
    obtain ⟨hb, hbs⟩ := List.forall_mem_cons.mp h
    have hcons : utf8Bytes (asciiText (b :: bs)) =
        String.utf8EncodeChar (Char.ofNat b.toNat) ++ utf8Bytes (asciiText bs) := rfl
    rw [hcons, ih hbs, utf8EncodeChar_ascii (by rw [toNat_asciiChar]; exact hb), toNat_asciiChar,
      UInt8.ofNat_toNat]
    rfl

end Ascii

/-- The words that the lexer reserves, as names. -/
def reservedNames : List (List Char) :=
  ["and".toList, "or".toList, "not".toList, "in".toList]

/-- No dot and no dash in the name, and no reserved word. -/
def PlainName (name : B256) : Prop :=
  (∀ b ∈ ident32ToBytes name, b ≠ 0x2D ∧ b ≠ 0x2E) ∧
    asciiText (ident32ToBytes name) ∉ reservedNames

section Identifiers

variable {key : Bytes}

theorem identCharset_range {b : UInt8} (h : identCharset b = true) :
    (97 ≤ b.toNat ∧ b.toNat ≤ 122) ∨ (48 ≤ b.toNat ∧ b.toNat ≤ 57) ∨ b = 0x2D ∨ b = 0x2E ∨
      b.toNat = 95 := by
  simp only [identCharset, Bool.or_eq_true, Bool.and_eq_true, decide_eq_true_eq, beq_iff_eq,
    UInt8.le_iff_toNat_le] at h
  rcases h with (((h | h) | h) | h) | rfl
  · exact .inl h
  · exact .inr (.inl h)
  · exact .inr (.inr (.inl h))
  · exact .inr (.inr (.inr (.inl h)))
  · exact .inr (.inr (.inr (.inr rfl)))

theorem IsIdent.ascii (h : IsIdent key) : ∀ b ∈ key, b.toNat ≤ 127 := by
  intro b hb
  rcases identCharset_range (h.charset b hb) with h | h | rfl | rfl | h
  · omega
  · omega
  · decide
  · decide
  · omega

/-- The text of an accepted name starts with a lower case letter. -/
theorem IsIdent.asciiText_head (h : IsIdent key) :
    ∃ c cs, asciiText key = c :: cs ∧ 97 ≤ c.toNat ∧ c.toNat ≤ 122 := by
  obtain ⟨b, hb, hlead⟩ := h.leading
  cases key with
  | nil => simp at hb
  | cons d bs =>
    obtain rfl := Option.some.inj hb
    simp only [identLeading, Bool.and_eq_true, decide_eq_true_eq, UInt8.le_iff_toNat_le] at hlead
    refine ⟨_, _, rfl, ?_⟩
    rw [toNat_asciiChar]
    exact hlead

theorem toLower_of_not_upper {c : Char} (h : ¬(65 ≤ c.toNat ∧ c.toNat ≤ 90)) : c.toLower = c := by
  rw [Char.toLower]
  split
  · next hupper => exact absurd hupper h
  · rfl

theorem IsIdent.lowercase (h : IsIdent key) : (asciiText key).map Char.toLower = asciiText key := by
  conv_rhs => rw [← List.map_id (asciiText key)]
  refine List.map_congr_left fun c hc => toLower_of_not_upper ?_
  obtain ⟨b, hb, rfl⟩ := List.mem_map.mp hc
  rw [toNat_asciiChar]
  rcases identCharset_range (h.charset b hb) with h | h | rfl | rfl | h
  · omega
  · omega
  · decide
  · decide
  · omega

variable [UnicodeTables]

/-- The identifier characters of an accepted name are all but dot and dash. -/
theorem isIdentContinue_asciiChar {b : UInt8} (h : identCharset b = true) :
    isIdentContinue (Char.ofNat b.toNat) = true ↔ b ≠ 0x2D ∧ b ≠ 0x2E := by
  have hchar := toNat_asciiChar b
  constructor
  · intro hc
    have hrange := isIdentContinue_range hc
    rw [hchar] at hrange
    constructor
    · rintro rfl
      simp at hrange
    · rintro rfl
      simp at hrange
  · rintro ⟨hdash, hdot⟩
    simp only [isIdentContinue, isAlphanumeric, isAlphabetic, Bool.or_eq_true, Bool.and_eq_true,
      decide_eq_true_eq, beq_iff_eq, char_le_iff, isDigit_iff, hchar, Char.reduceToNat]
    rcases identCharset_range h with h | h | h | h | h
    · tauto
    · tauto
    · exact absurd h hdash
    · exact absurd h hdot
    · exact .inr (Char.toNat_inj.mp (hchar.trans h))

/-- The reserved words are those of the lexer, in lower case. -/
theorem IsIdent.isName (h : IsIdent key) (hdash : ∀ b ∈ key, b ≠ 0x2D ∧ b ≠ 0x2E)
    (hfree : asciiText key ∉ reservedNames) : IsName (asciiText key) := by
  have hall : ∀ c ∈ asciiText key, isIdentContinue c = true := by
    intro c hc
    obtain ⟨b, hb, rfl⟩ := List.mem_map.mp hc
    exact (isIdentContinue_asciiChar (h.charset b hb)).mpr (hdash b hb)
  refine ⟨?_, fun c hc => hall c (List.mem_of_mem_tail hc), fun t word hword => ?_⟩
  · obtain ⟨c, cs, heq, hc⟩ := h.asciiText_head
    rw [heq]
    exact ⟨c, rfl, isIdentStart_letter (.inl hc)⟩
  · by_contra hne
    have hlower := Lexer.eqIgnoreAsciiCase_iff.mp (by simpa using hne)
    rw [h.lowercase] at hlower
    refine hfree ?_
    rw [hlower]
    cases t <;> simp only [reservedWord, reduceCtorEq, Option.some.injEq] at hword
    all_goals
      subst hword
      simp [reservedNames]

omit [UnicodeTables] in
/-- No reserved word is read as an identifier. -/
theorem wordToken_ident {s t : List Char} (h : Lexer.wordToken s = .ident t) :
    t = s ∧ s ∉ reservedNames := by
  have hfree : s ∉ reservedNames := by
    intro hs
    simp only [reservedNames, List.mem_cons, List.not_mem_nil, or_false] at hs
    rcases hs with rfl | rfl | rfl | rfl
    all_goals exact absurd h (by simp [Lexer.wordToken, Lexer.eqIgnoreAsciiCase])
  rw [Lexer.wordToken] at h
  split_ifs at h
  exact ⟨(Token.ident.inj h).symm, hfree⟩

theorem writes_single {t : Token} {s : List Char} (h : Spells t s) : Writes [t] s := by
  have hwrites := @Writes.cons _ t [] [] s [] (by simp) h (.nil (by simp)) (by simp [Separated])
  simpa using hwrites

/-- The result is no identifier. -/
def NoIdent (x : Except LexError (Token × Lexer)) : Prop := ∀ t l, x ≠ .ok (.ident t, l)

omit [UnicodeTables] in
theorem noIdent_ite {p : Prop} [Decidable p] {x y : Except LexError (Token × Lexer)}
    (hx : NoIdent x) (hy : NoIdent y) : NoIdent (if p then x else y) := by
  split
  · exact hx
  · exact hy

omit [UnicodeTables] in
theorem noIdent_ok {tok : Token} {l : Lexer} (h : ∀ t, tok ≠ .ident t) : NoIdent (.ok (tok, l)) := by
  intro t l' heq
  cases heq
  exact h t rfl

omit [UnicodeTables] in
theorem noIdent_error (e : LexError) : NoIdent (.error e) := fun _ _ h => by cases h

omit [UnicodeTables] in
theorem noIdent_lexPrefix {l : Lexer} {second : Char} {first both : Token}
    (hfirst : ∀ t, first ≠ .ident t) (hboth : ∀ t, both ≠ .ident t) :
    NoIdent (.ok (l.lexPrefix second first both)) := by
  unfold Lexer.lexPrefix
  dsimp only
  split
  · exact noIdent_ok hboth
  · exact noIdent_ok hfirst

omit [UnicodeTables] in
theorem noIdent_lexStringBody (start : ℕ) (out : List Char) (pos : ℕ) (cs : List Char) :
    NoIdent (Lexer.lexStringBody start out pos cs) := by
  fun_induction Lexer.lexStringBody start out pos cs with
  | case4 _ _ _ _ _ _ _ ih => exact ih
  | case6 _ _ _ _ _ _ ih => exact ih
  | case2 => exact noIdent_ok (by simp)
  | _ => exact noIdent_error _

omit [UnicodeTables] in
theorem noIdent_lexString (l : Lexer) : NoIdent l.lexString := noIdent_lexStringBody _ _ _ _

omit [UnicodeTables] in
theorem noIdent_lexNumberOrHex (l : Lexer) : NoIdent l.lexNumberOrHex := by
  unfold Lexer.lexNumberOrHex Lexer.lexHex
  refine noIdent_ite (noIdent_ite ?_ (noIdent_ite ?_ (noIdent_error _))) ?_
  case refine_3 => split; split <;> first | exact noIdent_ok (by simp) | exact noIdent_error _
  all_goals
    split
    · exact noIdent_ok (by simp)
    · exact noIdent_error _

theorem noIdent_lexDollarIdent (l : Lexer) : NoIdent l.lexDollarIdent := by
  have hbuiltIn : ∀ name tok, Lexer.builtInToken name = some tok → ∀ t, tok ≠ .ident t := by
    intro name tok h
    unfold Lexer.builtInToken at h
    split_ifs at h
    all_goals
      obtain rfl := Option.some.inj h
      simp
  unfold Lexer.lexDollarIdent
  dsimp only
  split
  · next tok htok => exact noIdent_ok (hbuiltIn _ tok htok)
  · exact noIdent_error _

/-- Only the branch of names returns an identifier. -/
theorem lexToken_ident {l l' : Lexer} {c : Char} {t : List Char}
    (h : Lexer.lexToken l c = .ok (.ident t, l')) :
    isIdentStart c = true ∧ l.lexIdentOrKeyword = (.ident t, l') := by
  by_cases hc : isIdentStart c = true
  · rw [Lexer.lexToken_start hc] at h
    exact ⟨hc, Except.ok.inj h⟩
  · have hno : NoIdent (Lexer.lexToken l c) := by
      unfold Lexer.lexToken Lexer.expectPair
      rw [if_neg hc]
      repeat' with_reducible apply noIdent_ite
      all_goals
        with_reducible
          first
            | exact noIdent_lexPrefix (by simp) (by simp)
            | exact noIdent_lexNumberOrHex _
            | exact noIdent_lexDollarIdent _
            | exact noIdent_ok (by simp)
            | exact noIdent_error _
            | exact noIdent_lexString _
    exact absurd h (hno t l')

omit [UnicodeTables] in
theorem skipWhile_suffix (p : Char → Bool) (pos : ℕ) (cs : List Char) :
    (Lexer.skipWhile p pos cs).rest <:+ cs := by
  fun_induction Lexer.skipWhile p pos cs with
  | case2 _ c cs _ ih => exact ih.trans (List.suffix_cons c cs)
  | _ => exact List.suffix_rfl

/-- A text in front of which the lexer reads that text itself as an identifier is a name. -/
theorem isName_of_nextToken {s : List Char} {l : Lexer} {pos : ℕ}
    (h : Lexer.nextToken ⟨pos, s⟩ = .ok (some (.ident s, l))) : IsName s := by
  rw [Lexer.nextToken] at h
  split at h
  · cases h
  · next c cs hrest =>
    obtain ⟨⟨tok, l'⟩, htok, heq⟩ := map_ok_iff.mp h
    cases heq
    obtain ⟨hstart, hword⟩ := lexToken_ident htok
    simp only [Lexer.lexIdentOrKeyword, Lexer.scan, hrest, Prod.mk.injEq] at hword
    obtain ⟨htake, -⟩ := wordToken_ident hword.1
    -- What is left after whitespace is no longer than the text, and the identifier no longer than
    -- what is left.
    have hsuffix : c :: cs <:+ s := hrest ▸ skipWhile_suffix isWhitespace pos s
    have hfront : s <+: c :: cs := htake ▸ List.takeWhile_prefix _
    obtain rfl := hfront.eq_of_length (le_antisymm hfront.length_le hsuffix.length_le)
    have hall := List.takeWhile_eq_self_iff.mp htake.symm
    refine ⟨⟨c, rfl, hstart⟩, fun d hd => hall d (List.mem_of_mem_tail hd), fun t word ht => ?_⟩
    by_contra hne
    have hreserved := Lexer.wordToken_of_reserved ht (by simpa using hne)
    rw [← htake] at hword
    rw [hword.1] at hreserved
    rw [← hreserved] at ht
    cases ht

/-- **Names are the texts that are one identifier.** -/
theorem tokenize_eq_ident_iff {s : List Char} : tokenize s = .ok [.ident s] ↔ IsName s := by
  constructor
  · intro h
    rw [tokenize, Lexer.new, Lexer.tokens] at h
    obtain ⟨first, hfirst, hrest⟩ := Runs.ok_bind.mp h
    cases first with
    | none => cases hrest
    | some found =>
      obtain ⟨tok, l⟩ := found
      obtain ⟨toks, -, heq⟩ := Runs.ok_bind.mp hrest
      obtain ⟨rfl, -⟩ := List.cons.inj (Except.ok.inj heq)
      exact isName_of_nextToken hfirst
  · intro h
    exact Lexer.tokens_of_writes (writes_single (.ident h)) (Nat.lt_succ_self _)

theorem IsName.continues {s : List Char} (h : IsName s) : ∀ c ∈ s, isIdentContinue c = true := by
  obtain ⟨c, hc, hstart⟩ := h.head
  cases s with
  | nil => simp at hc
  | cons d cs =>
    obtain rfl := Option.some.inj hc
    exact List.forall_mem_cons.mpr ⟨isIdentContinue_of_start hstart, h.tail⟩

/-- A name that is read as itself has only identifier characters and is not reserved. -/
theorem IsIdent.plain_of_isName (h : IsIdent key) (hname : IsName (asciiText key)) :
    (∀ b ∈ key, b ≠ 0x2D ∧ b ≠ 0x2E) ∧ asciiText key ∉ reservedNames := by
  refine ⟨fun b hb => ?_, (wordToken_ident (Lexer.wordToken_of_name hname)).2⟩
  exact (isIdentContinue_asciiChar (h.charset b hb)).mp
    (hname.continues _ (List.mem_map_of_mem hb))

end Identifiers

section Equalities

variable [UnicodeTables]

/-- An equality on a name that is one identifier, with a literal in any of its spellings. -/
theorem parse_equalityText {s literal : List Char} (hs : IsName s) {t : Token} {lit : Literal}
    {v : AnnotVal} (hlit : literalOf t = .ok lit) (ht : Spells t literal)
    (hv : encodeForKey (.user (utf8Bytes s)) lit = .ok v) :
    parse (equalityText s literal) = .ok (.eq (.user (utf8Bytes s)) v) := by
  have hspace : ∀ c ∈ [' '], isWhitespace c = true := List.all_eq_true.mp (by decide)
  have hsep : ∀ rest, Separated (' ' :: rest) := fun rest c hc => by
    obtain rfl := Option.some.inj hc
    decide
  have hlast : Writes [t] ([' '] ++ (literal ++ [])) :=
    .cons hspace ht (.nil (by simp)) (by simp [Separated])
  have hop : Writes [.eq, t] ([' '] ++ (['='] ++ ([' '] ++ (literal ++ [])))) :=
    .cons hspace (.symbol rfl) hlast (hsep _)
  have hall : Writes [.ident s, .eq, t] (equalityText s literal) := by
    have hcons := @Writes.cons _ _ _ [] _ _ (by simp) (.ident hs) hop (hsep _)
    simpa [equalityText] using hcons
  have htokens : tokenize (equalityText s literal) = .ok [.ident s, .eq, t] :=
    Lexer.tokens_of_writes hall (Nat.lt_succ_self _)
  have hvalue : Value (.user (utf8Bytes s)) t v :=
    ⟨lit, literalOf_iff.mp hlit, encodeForKey_iff.mp hv⟩
  have hpredicate : Predicate [.ident s, .eq, t] (.eq (.user (utf8Bytes s)) v) :=
    .compare (.user s) .eq hvalue
  rw [parse, htokens]
  exact hpredicate.topLevel.parse

end Equalities

variable [Keccak] [UnicodeTables]

/-- **Queryable names.** An accepted name can be queried if and only if it has no dot and no dash
    and is not `and`, `or`, `not` or `in`. -/
theorem queryable_iff {name : B256} (h : validateIdent32 name = .ok ()) :
    Queryable name ↔ PlainName name := by
  obtain ⟨hident, -⟩ := isIdent_of_validateIdent32 h
  have hbytes := utf8Bytes_asciiText hident.ascii
  constructor
  · intro hq
    exact hident.plain_of_isName (tokenize_eq_ident_iff.mp hq.token)
  · rintro ⟨hdash, hfree⟩
    have hname := hident.isName hdash hfree
    refine ⟨?_, fun t lit literal v hlit ht hv => ?_⟩
    · exact tokenize_eq_ident_iff.mpr hname
    · rw [← hbytes] at hv
      have hparse := parse_equalityText hname hlit ht hv
      rw [hbytes] at hparse
      exact ⟨_, hparse, rfl, rfl⟩

/-- A name in a word, with zeros behind it. -/
def nameWord (name : Bytes) : B256 :=
  BitVec.ofNat 256 (ofBe (name ++ List.replicate (32 - name.length) 0))

omit [Keccak] [UnicodeTables] in
theorem queryable_iff_snake_case :
    @Queryable ⟨KeccakSponge.digest⟩ latinTables (nameWord (ascii "content_type2")) :=
  (@queryable_iff ⟨KeccakSponge.digest⟩ latinTables _ (by decide +kernel)).mpr (by
    refine ⟨?_, ?_⟩
    · decide +kernel
    · decide +kernel)

omit [Keccak] [UnicodeTables] in
/-- A name with a dash is no token, and `in` is an operator. -/
theorem not_queryable_dash_in :
    (validateIdent32 (nameWord (ascii "sort-order")) = .ok () ∧
      @tokenize latinTables "sort-order".toList = .error (.unexpectedChar 4 '-') ∧
      ¬@Queryable ⟨KeccakSponge.digest⟩ latinTables (nameWord (ascii "sort-order"))) ∧
    validateIdent32 (nameWord (ascii "in")) = .ok () ∧
      @tokenize latinTables "in".toList = .ok [.isIn] ∧
      ¬@Queryable ⟨KeccakSponge.digest⟩ latinTables (nameWord (ascii "in")) := by
  have hdash : asciiText (ident32ToBytes (nameWord (ascii "sort-order"))) = "sort-order".toList := by
    decide +kernel
  have hin : asciiText (ident32ToBytes (nameWord (ascii "in"))) = "in".toList := by decide +kernel
  have hdashTokens : @tokenize latinTables "sort-order".toList = .error (.unexpectedChar 4 '-') := by
    decide +kernel
  have hinTokens : @tokenize latinTables "in".toList = .ok [.isIn] := by decide +kernel
  refine ⟨⟨by decide +kernel, hdashTokens, fun hq => ?_⟩, by decide +kernel, hinTokens, fun hq => ?_⟩
  · have htoken := @Queryable.token ⟨KeccakSponge.digest⟩ latinTables _ hq
    rw [hdash, hdashTokens] at htoken
    cases htoken
  · have htoken := @Queryable.token ⟨KeccakSponge.digest⟩ latinTables _ hq
    rw [hin, hinTokens] at htoken
    cases htoken

end Arkiv
