import Mathlib
import Arkiv.Query.Grammar
import Arkiv.Query.Names

/-!
# What a text can ask for

The parser encodes literals while it reads them, so not every query over bytes
has a text. The queries that have one are those whose keys are names and whose
values are what a literal posts under its key, with `$all` only as a whole.

## Main definitions

- `AnnotKey.Named`, `AnnotKey.Admits` — keys and values that can be written
- `AnnotKey.AdmitsOrdered`, `AnnotKey.AdmitsPrefix` — the same for ranges and patterns
- `Query.Expressible` — queries that can be written
- `exists_parse_iff` — the texts of the language parse to exactly these
-/

namespace Arkiv

open ByteString

/-- The bytes of a text. -/
def IsText (v : Bytes) : Prop := ∃ s, utf8Bytes s = v

/-- An entity key. In quotes a second `0x` takes the place of the last byte. -/
def IsKeyValue (v : Bytes) : Prop := v.length = 32 ∨ v.length = 31

namespace AnnotKey

/-- Built-in keys, and user keys that are names. -/
def Named [UnicodeTables] : AnnotKey → Prop
  | builtIn _ => True
  | user k => ∃ s, IsName s ∧ utf8Bytes s = k

/-- What a literal posts under a key. -/
def Admits : AnnotKey → AnnotVal → Prop
  | builtIn .owner, v => v.length = 20
  | builtIn .creator, v => v.length = 20
  | builtIn .key, v => IsKeyValue v
  | builtIn .expiration, v => v.length = 8
  | builtIn .createdAtBlock, v => v.length = 8
  | builtIn .contentType, v => IsText v
  | user _, v => v.length = 20 ∨ v.length = 32 ∨ IsText v

/-- What a literal other than an address and an entity key posts under a key. -/
def AdmitsOrdered : AnnotKey → AnnotVal → Prop
  | builtIn .owner, _ => False
  | builtIn .creator, _ => False
  | builtIn .key, v => IsKeyValue v
  | builtIn .expiration, v => v.length = 8
  | builtIn .createdAtBlock, v => v.length = 8
  | builtIn .contentType, v => IsText v
  | user _, v => (∃ n : UInt64, v = List.replicate 24 0 ++ u64Bytes n) ∨ IsText v

/-- What stands in front of the star of a pattern under a key. -/
def AdmitsPrefix : AnnotKey → AnnotVal → Prop
  | builtIn .contentType, v => ∃ s, '*' ∉ s ∧ utf8Bytes s = v
  | user _, v => ∃ s, '*' ∉ s ∧ utf8Bytes s = v
  | builtIn _, _ => False

end AnnotKey

/-- The queries that can be written. -/
def Query.Expressible [UnicodeTables] : Query → Prop
  | .all => False
  | .eq k v => k.Named ∧ k.Admits v
  | .neq k v => k.Named ∧ k.Admits v
  | .isIn k vs => k.Named ∧ vs ≠ [] ∧ ∀ v ∈ vs, k.Admits v
  | .notIn k vs => k.Named ∧ vs ≠ [] ∧ ∀ v ∈ vs, k.Admits v
  | .gt k v => k.Named ∧ k.AdmitsOrdered v
  | .gte k v => k.Named ∧ k.AdmitsOrdered v
  | .lt k v => k.Named ∧ k.AdmitsOrdered v
  | .lte k v => k.Named ∧ k.AdmitsOrdered v
  | .glob k v => k.Named ∧ k.AdmitsPrefix v
  | .notGlob k v => k.Named ∧ k.AdmitsPrefix v
  | .and l r => l.Expressible ∧ r.Expressible
  | .or l r => l.Expressible ∧ r.Expressible
  | .not q => q.Expressible

section Hex

theorem hexOf_of_hexPairs {digits : List Char} {bytes : Bytes} (h : hexPairs digits = some bytes) :
    HexOf digits bytes := by
  fun_induction hexPairs digits generalizing bytes with
  | case1 =>
    obtain rfl := Option.some.inj h
    exact .nil
  | case2 => cases h
  | case3 a b rest ih =>
    obtain ⟨hi, hhi, h⟩ := Option.bind_eq_some_iff.mp h
    obtain ⟨lo, hlo, h⟩ := Option.bind_eq_some_iff.mp h
    obtain ⟨bs, hbs, h⟩ := Option.bind_eq_some_iff.mp h
    obtain rfl := Option.some.inj h
    exact .cons hhi hlo (ih hbs)

theorem HexOf.utf8_length {digits : List Char} {bytes : Bytes} (h : HexOf digits bytes) :
    (utf8Bytes digits).length = 2 * bytes.length := by
  rw [utf8Bytes_length_ascii fun c hc => ?_, h.length]
  obtain ⟨n, hn⟩ := Option.isSome_iff_exists.mp (h.isHex c hc)
  have hrange := hexValue_some hn
  omega

/-- What stands between the quotes of an entity key: digits, or `0x` and digits. -/
theorem hexDecode_iff {digits : List Char} {bytes : Bytes}
    (hsize : (utf8Bytes digits).length = 64) : hexDecode digits = some bytes ↔
      HexOf digits bytes ∧ bytes.length = 32 ∨
        ∃ rest, digits = '0' :: 'x' :: rest ∧ HexOf rest bytes ∧ bytes.length = 31 := by
  have heven : ¬(utf8Bytes digits).length % 2 = 1 := by omega
  constructor
  · intro h
    unfold hexDecode at h
    rw [if_neg heven] at h
    split at h
    · next rest =>
      have hhex := hexOf_of_hexPairs h
      have hlength := hhex.utf8_length
      have hcons : (utf8Bytes ('0' :: 'x' :: rest)).length = 2 + (utf8Bytes rest).length := by
        show ([48, 120] ++ utf8Bytes rest : Bytes).length = _
        rw [List.length_append]
        rfl
      exact .inr ⟨rest, rfl, hhex, by omega⟩
    · have hhex := hexOf_of_hexPairs h
      have hlength := hhex.utf8_length
      exact .inl ⟨hhex, by omega⟩
  · rintro (⟨h, -⟩ | ⟨rest, rfl, h, -⟩)
    · exact h.hexDecode
    · unfold hexDecode
      rw [if_neg heven]
      exact h.hexPairs

end Hex

section Values

variable {key : AnnotKey} {v : AnnotVal}

theorem exists_addressBytes (h : v.length = 20) : ∃ a : Address, addressBytes a = v := by
  refine ⟨BitVec.ofNat 160 (ofBe v), ?_⟩
  have hlt := ofBe_lt v
  rw [h] at hlt
  rw [addressBytes, BitVec.toNat_ofNat, Nat.mod_eq_of_lt (by omega), be_ofBe h]

theorem exists_b256Bytes (h : v.length = 32) : ∃ b : B256, b256Bytes b = v := by
  refine ⟨BitVec.ofNat 256 (ofBe v), ?_⟩
  have hlt := ofBe_lt v
  rw [h] at hlt
  rw [b256Bytes, BitVec.toNat_ofNat, Nat.mod_eq_of_lt (by omega), be_ofBe h]

theorem exists_u64Bytes (h : v.length = 8) : ∃ n : UInt64, u64Bytes n = v := by
  refine ⟨UInt64.ofNat (ofBe v), ?_⟩
  have hlt := ofBe_lt v
  rw [h] at hlt
  rw [u64Bytes, UInt64.toNat_ofNat_of_lt' (by omega), be_ofBe h]

/-- A quoted entity key has a text for every value of its two lengths. -/
theorem exists_quotedKey (h : IsKeyValue v) :
    ∃ s, Value (.builtIn .key) (.stringLit s) v := by
  obtain ⟨digits, hd⟩ := exists_hexOf v
  rcases h with h | h
  · have hsize : (utf8Bytes digits).length = 64 := by rw [hd.utf8_length, h]
    exact ⟨_, _, .string _, .quotedKey (.inl rfl) hsize
      ((hexDecode_iff hsize).mpr (.inl ⟨hd, h⟩))⟩
  · have hsize : (utf8Bytes ('0' :: 'x' :: digits)).length = 64 := by
      show ([48, 120] ++ utf8Bytes digits : Bytes).length = 64
      rw [List.length_append, hd.utf8_length, h]
      rfl
    exact ⟨_, _, .string _, .quotedKey (.inl rfl) hsize
      ((hexDecode_iff hsize).mpr (.inr ⟨digits, rfl, hd, h⟩))⟩

theorem isKeyValue_of_hexDecode {digits : List Char} (hsize : (utf8Bytes digits).length = 64)
    (h : hexDecode digits = some v) : IsKeyValue v := by
  rcases (hexDecode_iff hsize).mp h with ⟨-, h⟩ | ⟨-, -, -, h⟩
  · exact .inl h
  · exact .inr h

/-- The values of the literals under a key. -/
theorem admits_iff : key.Admits v ↔ ∃ t, Value key t v := by
  constructor
  · intro h
    match key, h with
    | .builtIn .owner, h =>
      obtain ⟨a, rfl⟩ := exists_addressBytes h
      exact ⟨_, _, .address a, .owner a⟩
    | .builtIn .creator, h =>
      obtain ⟨a, rfl⟩ := exists_addressBytes h
      exact ⟨_, _, .address a, .creator a⟩
    | .builtIn .key, h =>
      obtain ⟨s, hs⟩ := exists_quotedKey h
      exact ⟨_, hs⟩
    | .builtIn .expiration, h =>
      obtain ⟨n, rfl⟩ := exists_u64Bytes h
      exact ⟨_, _, .number n, .expiration n⟩
    | .builtIn .createdAtBlock, h =>
      obtain ⟨n, rfl⟩ := exists_u64Bytes h
      exact ⟨_, _, .number n, .createdAtBlock n⟩
    | .builtIn .contentType, ⟨s, hs⟩ => exact ⟨_, _, .string s, hs ▸ .contentType s⟩
    | .user k, .inl h =>
      obtain ⟨a, rfl⟩ := exists_addressBytes h
      exact ⟨_, _, .address a, .userAddress k a⟩
    | .user k, .inr (.inl h) =>
      obtain ⟨b, rfl⟩ := exists_b256Bytes h
      exact ⟨_, _, .entityKey b, .userEntityKey k b⟩
    | .user k, .inr (.inr ⟨s, hs⟩) => exact ⟨_, _, .string s, hs ▸ .userString k s⟩
  · rintro ⟨t, lit, -, h⟩
    cases h with
    | owner a => exact addressBytes_length a
    | creator a => exact addressBytes_length a
    | key b => exact .inl (b256Bytes_length b)
    | quotedKey hx hsize h => exact isKeyValue_of_hexDecode hsize h
    | expiration n => exact be_length 8 _
    | createdAtBlock n => exact be_length 8 _
    | contentType s => exact ⟨s, rfl⟩
    | userNumber k n =>
      refine .inr (.inl ?_)
      rw [List.length_append, List.length_replicate, u64Bytes, be_length]
    | userString k s => exact .inr (.inr ⟨s, rfl⟩)
    | userAddress k a => exact .inl (addressBytes_length a)
    | userEntityKey k b => exact .inr (.inl (b256Bytes_length b))

theorem ordered_number (n : UInt64) : Ordered (.number n) := ⟨by simp, by simp⟩

theorem ordered_stringLit (s : List Char) : Ordered (.stringLit s) := ⟨by simp, by simp⟩

/-- The values of the literals that a range operator takes. -/
theorem admitsOrdered_iff : key.AdmitsOrdered v ↔ ∃ t, Ordered t ∧ Value key t v := by
  constructor
  · intro h
    match key, h with
    | .builtIn .key, h =>
      obtain ⟨s, hs⟩ := exists_quotedKey h
      exact ⟨_, ordered_stringLit s, hs⟩
    | .builtIn .expiration, h =>
      obtain ⟨n, rfl⟩ := exists_u64Bytes h
      exact ⟨_, ordered_number n, _, .number n, .expiration n⟩
    | .builtIn .createdAtBlock, h =>
      obtain ⟨n, rfl⟩ := exists_u64Bytes h
      exact ⟨_, ordered_number n, _, .number n, .createdAtBlock n⟩
    | .builtIn .contentType, ⟨s, hs⟩ =>
      exact ⟨_, ordered_stringLit s, _, .string s, hs ▸ .contentType s⟩
    | .user k, .inl ⟨n, hn⟩ => exact ⟨_, ordered_number n, _, .number n, hn ▸ .userNumber k n⟩
    | .user k, .inr ⟨s, hs⟩ => exact ⟨_, ordered_stringLit s, _, .string s, hs ▸ .userString k s⟩
  · rintro ⟨t, ht, lit, hden, h⟩
    cases hden with
    | address a => exact absurd rfl (ht.1 a)
    | entityKey b => exact absurd rfl (ht.2 b)
    | number n =>
      cases h with
      | expiration => exact be_length 8 _
      | createdAtBlock => exact be_length 8 _
      | userNumber => exact .inl ⟨n, rfl⟩
    | string s =>
      cases h with
      | quotedKey hx hsize h => exact isKeyValue_of_hexDecode hsize h
      | contentType => exact ⟨s, rfl⟩
      | userString => exact .inr ⟨s, rfl⟩

theorem admitsPrefix_iff : key.AdmitsPrefix v ↔ ∃ t, Pattern key t v := by
  constructor
  · intro h
    match key, h with
    | .builtIn .contentType, ⟨s, hstar, hs⟩ => exact ⟨.stringLit (s ++ ['*']), hs ▸ .contentType hstar⟩
    | .user k, ⟨s, hstar, hs⟩ => exact ⟨.stringLit (s ++ ['*']), hs ▸ .user k hstar⟩
  · rintro ⟨t, h⟩
    cases h with
    | contentType hstar => exact ⟨_, hstar, rfl⟩
    | user k hstar => exact ⟨_, hstar, rfl⟩

/-- A list of values has a list of literals. -/
theorem forall₂_value_iff {vs : List AnnotVal} :
    (∀ v ∈ vs, key.Admits v) ↔ ∃ ts, List.Forall₂ (Value key) ts vs := by
  constructor
  · intro h
    induction vs with
    | nil => exact ⟨[], .nil⟩
    | cons v vs ih =>
      obtain ⟨hv, hvs⟩ := List.forall_mem_cons.mp h
      obtain ⟨t, ht⟩ := admits_iff.mp hv
      obtain ⟨ts, hts⟩ := ih hvs
      exact ⟨t :: ts, .cons ht hts⟩
  · rintro ⟨ts, hts⟩
    induction hts with
    | nil => simp
    | cons ht hts ih => exact List.forall_mem_cons.mpr ⟨admits_iff.mpr ⟨_, ht⟩, ih⟩

end Values

section Names

variable [UnicodeTables]

/-- The identifiers among the tokens are names. -/
def NamesIn (ts : List Token) : Prop := ∀ s, .ident s ∈ ts → IsName s

omit [UnicodeTables] in
theorem Value.ne_ident {key : AnnotKey} {t : Token} {v : AnnotVal} (h : Value key t v)
    (s : List Char) : t ≠ .ident s := by
  rintro rfl
  obtain ⟨lit, hden, -⟩ := h
  cases hden

theorem named_iff {key : AnnotKey} : key.Named ↔ ∃ k, Names k key ∧ NamesIn [k] := by
  constructor
  · intro h
    match key, h with
    | .builtIn .owner, _ => exact ⟨_, .owner, by simp [NamesIn]⟩
    | .builtIn .creator, _ => exact ⟨_, .creator, by simp [NamesIn]⟩
    | .builtIn .key, _ => exact ⟨_, .key, by simp [NamesIn]⟩
    | .builtIn .expiration, _ => exact ⟨_, .expiration, by simp [NamesIn]⟩
    | .builtIn .contentType, _ => exact ⟨_, .contentType, by simp [NamesIn]⟩
    | .builtIn .createdAtBlock, _ => exact ⟨_, .createdAtBlock, by simp [NamesIn]⟩
    | .user k, ⟨s, hs, hk⟩ =>
      refine ⟨.ident s, hk ▸ .user s, fun s' hs' => ?_⟩
      rwa [Token.ident.inj (List.mem_singleton.mp hs')]
  · rintro ⟨k, hk, hnames⟩
    cases hk with
    | user s => exact ⟨s, hnames s (List.mem_singleton_self _), rfl⟩
    | _ => exact trivial

theorem namesIn_cons {t : Token} {ts : List Token} :
    NamesIn (t :: ts) ↔ NamesIn [t] ∧ NamesIn ts := by
  simp only [NamesIn, List.mem_cons, List.not_mem_nil, or_false]
  exact ⟨fun h => ⟨fun s hs => h s (.inl hs), fun s hs => h s (.inr hs)⟩,
    fun h s hs => hs.elim (h.1 s) (h.2 s)⟩

theorem namesIn_append {ts us : List Token} :
    NamesIn (ts ++ us) ↔ NamesIn ts ∧ NamesIn us := by
  simp only [NamesIn, List.mem_append]
  exact ⟨fun h => ⟨fun s hs => h s (.inl hs), fun s hs => h s (.inr hs)⟩,
    fun h s hs => hs.elim (h.1 s) (h.2 s)⟩

theorem namesIn_of_ne {t : Token} (h : ∀ s, t ≠ .ident s) : NamesIn [t] := fun s hs =>
  absurd (List.mem_singleton.mp hs).symm (h s)

theorem namesIn_values {key : AnnotKey} {ts : List Token} {vs : List AnnotVal}
    (h : List.Forall₂ (Value key) ts vs) : NamesIn ts := by
  induction h with
  | nil => simp [NamesIn]
  | cons ht hts ih => exact namesIn_cons.mpr ⟨namesIn_of_ne ht.ne_ident, ih⟩

/-- **Every text has names for identifiers.** -/
theorem isName_of_ident {l l' : Lexer} {s : List Char}
    (h : Lexer.nextToken l = .ok (some (.ident s, l'))) : IsName s := by
  rw [Lexer.nextToken] at h
  split at h
  · cases h
  · next c cs hrest =>
    obtain ⟨⟨tok, l''⟩, htok, heq⟩ := map_ok_iff.mp h
    cases heq
    obtain ⟨hstart, hword⟩ := lexToken_ident htok
    simp only [Lexer.lexIdentOrKeyword, Lexer.scan, hrest, Prod.mk.injEq] at hword
    rw [List.takeWhile_cons_of_pos (isIdentContinue_of_start hstart)] at hword
    obtain ⟨rfl, -⟩ := wordToken_ident hword.1
    refine ⟨⟨c, rfl, hstart⟩, fun d hd => (List.all_eq_true.mp List.all_takeWhile) d hd,
      fun t word ht => ?_⟩
    by_contra hne
    have hreserved := Lexer.wordToken_of_reserved ht (by simpa using hne)
    rw [hword.1] at hreserved
    rw [← hreserved] at ht
    cases ht

theorem namesIn_of_tokens {rounds : ℕ} {l : Lexer} {ts : List Token}
    (h : Lexer.tokens rounds l = .ok ts) : NamesIn ts := by
  induction rounds generalizing l ts with
  | zero =>
    obtain rfl := Except.ok.inj h
    simp [NamesIn]
  | succ rounds ih =>
    rw [Lexer.tokens] at h
    obtain ⟨first, hfirst, h⟩ := Runs.ok_bind.mp h
    cases first with
    | none =>
      obtain rfl := Except.ok.inj h
      simp [NamesIn]
    | some found =>
      obtain ⟨tok, l'⟩ := found
      obtain ⟨toks, htoks, heq⟩ := Runs.ok_bind.mp h
      obtain rfl := Except.ok.inj heq
      refine namesIn_cons.mpr ⟨fun s hs => ?_, ih htoks⟩
      rw [← List.mem_singleton.mp hs] at hfirst
      exact isName_of_ident hfirst

/-- Tokens with names for identifiers can be written, with whitespace in front of each. -/
theorem exists_writes {ts : List Token} (h : NamesIn ts) : ∃ text, Writes ts text ∧ Separated text := by
  induction ts with
  | nil => exact ⟨[], .nil (by simp), by simp [Separated]⟩
  | cons t ts ih =>
    obtain ⟨ht, hts⟩ := namesIn_cons.mp h
    obtain ⟨s, hs⟩ := exists_spells t fun u hu => ht u (by simp [hu])
    obtain ⟨text, hwrites, hsep⟩ := ih hts
    refine ⟨[' '] ++ (s ++ text), .cons (List.all_eq_true.mp (by decide)) hs hwrites hsep,
      fun c hc => ?_⟩
    obtain rfl := Option.some.inj hc
    decide

end Names

section Queries

variable [UnicodeTables] {q : Query} {ts : List Token}

omit [UnicodeTables] in
theorem Pattern.ne_ident {key : AnnotKey} {t : Token} {v : AnnotVal} (h : Pattern key t v)
    (s : List Char) : t ≠ .ident s := by
  cases h <;> simp

/-- What the parser makes of a predicate can be written. -/
theorem Predicate.expressible (h : Predicate ts q) (hnames : NamesIn ts) : q.Expressible := by
  cases h with
  | compare hk hop hv =>
    have hkey := named_iff.mpr ⟨_, hk, (namesIn_cons.mp hnames).1⟩
    have hvalue := admits_iff.mpr ⟨_, hv⟩
    cases hop <;> exact ⟨hkey, hvalue⟩
  | range hk hop ht hv =>
    have hkey := named_iff.mpr ⟨_, hk, (namesIn_cons.mp hnames).1⟩
    have hvalue := admitsOrdered_iff.mpr ⟨_, ht, hv⟩
    cases hop <;> exact ⟨hkey, hvalue⟩
  | glob hk hop hv =>
    have hkey := named_iff.mpr ⟨_, hk, (namesIn_cons.mp hnames).1⟩
    have hvalue := admitsPrefix_iff.mpr ⟨_, hv⟩
    cases hop <;> exact ⟨hkey, hvalue⟩
  | isIn hk hvs hne =>
    exact ⟨named_iff.mpr ⟨_, hk, (namesIn_cons.mp hnames).1⟩, hne,
      forall₂_value_iff.mpr ⟨_, hvs⟩⟩
  | notIn hk hvs hne =>
    exact ⟨named_iff.mpr ⟨_, hk, (namesIn_cons.mp hnames).1⟩, hne,
      forall₂_value_iff.mpr ⟨_, hvs⟩⟩

/-- **Soundness**, by induction on the derivation. -/
theorem Derives.expressible {level : Level} (h : Derives level ts q) (hnames : NamesIn ts) :
    q.Expressible := by
  induction h with
  | predicate h => exact h.expressible hnames
  | parens h ih => exact ih (namesIn_append.mp (namesIn_cons.mp hnames).2).1
  | not h ih =>
    exact ih (namesIn_append.mp (namesIn_cons.mp (namesIn_cons.mp hnames).2).2).1
  | single h ih => exact ih hnames
  | disjunct h ih => exact ih hnames
  | and hl hr ihl ihr =>
    obtain ⟨hleft, hright⟩ := namesIn_append.mp hnames
    exact ⟨ihl hleft, ihr (namesIn_cons.mp hright).2⟩
  | or hl hr ihl ihr =>
    obtain ⟨hleft, hright⟩ := namesIn_append.mp hnames
    exact ⟨ihl hleft, ihr (namesIn_cons.mp hright).2⟩

/-- Tokens of a term for the query. -/
def HasTerm (q : Query) : Prop := ∃ ts, Derives .term ts q ∧ NamesIn ts

theorem hasTerm_pair {key : AnnotKey} {op t : Token} (hkey : key.Named)
    (hop : ∀ s, op ≠ .ident s) (ht : ∀ s, t ≠ .ident s)
    (h : ∀ k, Names k key → Predicate [k, op, t] q) : HasTerm q := by
  obtain ⟨k, hk, hnames⟩ := named_iff.mp hkey
  exact ⟨_, .predicate (h k hk), namesIn_cons.mpr ⟨hnames,
    namesIn_cons.mpr ⟨namesIn_of_ne hop, namesIn_of_ne ht⟩⟩⟩

theorem hasTerm_compare {key : AnnotKey} {v : AnnotVal} {op : Token}
    {make : AnnotKey → AnnotVal → Query} (hop : Compares op make)
    (h : key.Named ∧ key.Admits v) : HasTerm (make key v) := by
  obtain ⟨t, ht⟩ := admits_iff.mp h.2
  exact hasTerm_pair h.1 (by cases hop <;> simp) ht.ne_ident fun k hk => .compare hk hop ht

theorem hasTerm_range {key : AnnotKey} {v : AnnotVal} {op : Token}
    {make : AnnotKey → AnnotVal → Query} (hop : Ranges op make)
    (h : key.Named ∧ key.AdmitsOrdered v) : HasTerm (make key v) := by
  obtain ⟨t, hordered, ht⟩ := admitsOrdered_iff.mp h.2
  exact hasTerm_pair h.1 (by cases hop <;> simp) ht.ne_ident fun k hk => .range hk hop hordered ht

theorem hasTerm_glob {key : AnnotKey} {v : AnnotVal} {op : Token}
    {make : AnnotKey → AnnotVal → Query} (hop : Globs op make)
    (h : key.Named ∧ key.AdmitsPrefix v) : HasTerm (make key v) := by
  obtain ⟨t, ht⟩ := admitsPrefix_iff.mp h.2
  exact hasTerm_pair h.1 (by cases hop <;> simp) ht.ne_ident fun k hk => .glob hk hop ht

theorem hasTerm_list {key : AnnotKey} {vs : List AnnotVal} (front : List Token)
    (hfront : NamesIn front) (h : key.Named ∧ vs ≠ [] ∧ ∀ v ∈ vs, key.Admits v)
    (hpredicate : ∀ k ts, Names k key → List.Forall₂ (Value key) ts vs →
      Predicate (k :: (front ++ .lParen :: (ts ++ [.rParen]))) q) : HasTerm q := by
  obtain ⟨k, hk, hnames⟩ := named_iff.mp h.1
  obtain ⟨ts, hts⟩ := forall₂_value_iff.mp h.2.2
  refine ⟨_, .predicate (hpredicate k ts hk hts), namesIn_cons.mpr ⟨hnames, ?_⟩⟩
  refine namesIn_append.mpr ⟨hfront, namesIn_cons.mpr ⟨namesIn_of_ne (by simp), ?_⟩⟩
  exact namesIn_append.mpr ⟨namesIn_values hts, namesIn_of_ne (by simp)⟩

/-- **Completeness**, by induction on the query: operands are put in parentheses. -/
theorem Query.Expressible.hasTerm (h : q.Expressible) : HasTerm q := by
  induction q with
  | all => exact h.elim
  | eq k v => exact hasTerm_compare .eq h
  | neq k v => exact hasTerm_compare .neq h
  | isIn k vs =>
    exact hasTerm_list [.isIn] (namesIn_of_ne (by simp)) h
      fun k ts hk hts => .isIn hk hts h.2.1
  | notIn k vs =>
    exact hasTerm_list [.not, .isIn]
      (namesIn_cons.mpr ⟨namesIn_of_ne (by simp), namesIn_of_ne (by simp)⟩) h
      fun k ts hk hts => .notIn hk hts h.2.1
  | gt k v => exact hasTerm_range .gt h
  | gte k v => exact hasTerm_range .gte h
  | lt k v => exact hasTerm_range .lt h
  | lte k v => exact hasTerm_range .lte h
  | glob k v => exact hasTerm_glob .glob h
  | notGlob k v => exact hasTerm_glob .notGlob h
  | and l r ihl ihr =>
    obtain ⟨ts, hts, htnames⟩ := ihl h.1
    obtain ⟨us, hus, hunames⟩ := ihr h.2
    refine ⟨_, .parens (.disjunct (.and (.single hts) hus)),
      namesIn_cons.mpr ⟨namesIn_of_ne (by simp), namesIn_append.mpr ⟨?_, namesIn_of_ne (by simp)⟩⟩⟩
    exact namesIn_append.mpr ⟨htnames, namesIn_cons.mpr ⟨namesIn_of_ne (by simp), hunames⟩⟩
  | or l r ihl ihr =>
    obtain ⟨ts, hts, htnames⟩ := ihl h.1
    obtain ⟨us, hus, hunames⟩ := ihr h.2
    refine ⟨_, .parens (.or (.disjunct (.single hts)) (.single hus)),
      namesIn_cons.mpr ⟨namesIn_of_ne (by simp), namesIn_append.mpr ⟨?_, namesIn_of_ne (by simp)⟩⟩⟩
    exact namesIn_append.mpr ⟨htnames, namesIn_cons.mpr ⟨namesIn_of_ne (by simp), hunames⟩⟩
  | not q ih =>
    obtain ⟨ts, hts, hnames⟩ := ih h
    refine ⟨_, .not (.disjunct (.single hts)), namesIn_cons.mpr ⟨namesIn_of_ne (by simp), ?_⟩⟩
    refine namesIn_cons.mpr ⟨namesIn_of_ne (by simp), ?_⟩
    exact namesIn_append.mpr ⟨hnames, namesIn_of_ne (by simp)⟩

/-- A list of tokens that is a query has a text. -/
theorem exists_text_of_topLevel (h : TopLevel ts q) (hnames : NamesIn ts) :
    ∃ text, parse text = .ok q := by
  obtain ⟨text, hwrites, -⟩ := exists_writes hnames
  have htokens : tokenize text = .ok ts := Lexer.tokens_of_writes hwrites (Nat.lt_succ_self _)
  refine ⟨text, ?_⟩
  rw [parse, htokens]
  exact h.parse

/-- **The queries that texts ask for.** Some text parses to a query if and only if the query is
    everything, or its keys are names, its values are what the literals of its operators post under
    their keys, its lists are not empty and everything is no part of it. -/
theorem exists_parse_iff (q : Query) :
    (∃ text, parse text = .ok q) ↔ q = .all ∨ q.Expressible := by
  constructor
  · rintro ⟨text, h⟩
    unfold parse at h
    split at h
    · next ts hts =>
      have hnames := namesIn_of_tokens hts
      cases TopLevel.of_parse h with
      | star => exact .inl rfl
      | dollarAll => exact .inl rfl
      | expr hderives => exact .inr (hderives.expressible hnames)
    · cases h
  · rintro (rfl | h)
    · exact exists_text_of_topLevel .star (namesIn_of_ne (by simp))
    · obtain ⟨ts, hts, hnames⟩ := h.hasTerm
      exact exists_text_of_topLevel (.expr (.disjunct (.single hts))) hnames

end Queries

end Arkiv
