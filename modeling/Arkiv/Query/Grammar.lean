import Mathlib
import Arkiv.Lib.Run
import Arkiv.Model.Parser

/-!
# The grammar of the query language

Derivations of token lists: predicates with the literals that their key admits,
terms, conjunctions and disjunctions. The parser accepts the lists that have a
derivation and returns its query.

## Main definitions

- `Encodes` — the literals that a key admits, with their posted form
- `Predicate` — a key, an operator and its values
- `Derives` — terms, conjunctions and disjunctions
- `TopLevel` — a whole query
- `parseTopLevel_iff` — the parser against the grammar
-/

namespace Arkiv

open ByteString

/-- The token of a key. -/
inductive Names : Token → AnnotKey → Prop where
  | owner : Names .dollarOwner (.builtIn .owner)
  | creator : Names .dollarCreator (.builtIn .creator)
  | key : Names .dollarKey (.builtIn .key)
  | expiration : Names .dollarExpiration (.builtIn .expiration)
  | contentType : Names .dollarContentType (.builtIn .contentType)
  | createdAtBlock : Names .dollarCreatedAtBlock (.builtIn .createdAtBlock)
  | user (s : List Char) : Names (.ident s) (.user (utf8Bytes s))

/-- The token of a literal. -/
inductive Denotes : Token → Literal → Prop where
  | number (n : UInt64) : Denotes (.number n) (.number n)
  | string (s : List Char) : Denotes (.stringLit s) (.string s)
  | address (a : Address) : Denotes (.address a) (.address a)
  | entityKey (b : B256) : Denotes (.entityKey b) (.entityKey b)

/-- The literals that a key admits. A quoted entity key has `0x` or `0X` and 64 bytes of text that
    the hex decoder accepts. -/
inductive Encodes : AnnotKey → Literal → AnnotVal → Prop where
  | owner (a : Address) : Encodes (.builtIn .owner) (.address a) (addressBytes a)
  | creator (a : Address) : Encodes (.builtIn .creator) (.address a) (addressBytes a)
  | key (b : B256) : Encodes (.builtIn .key) (.entityKey b) (b256Bytes b)
  | quotedKey {x : Char} {digits : List Char} {bytes : Bytes} (hx : x = 'x' ∨ x = 'X')
      (hsize : (utf8Bytes digits).length = 64) (h : hexDecode digits = some bytes) :
      Encodes (.builtIn .key) (.string ('0' :: x :: digits)) bytes
  | expiration (n : UInt64) : Encodes (.builtIn .expiration) (.number n) (u64Bytes n)
  | createdAtBlock (n : UInt64) : Encodes (.builtIn .createdAtBlock) (.number n) (u64Bytes n)
  | contentType (s : List Char) : Encodes (.builtIn .contentType) (.string s) (utf8Bytes s)
  | userNumber (k : Bytes) (n : UInt64) :
      Encodes (.user k) (.number n) (List.replicate 24 0 ++ u64Bytes n)
  | userString (k : Bytes) (s : List Char) : Encodes (.user k) (.string s) (utf8Bytes s)
  | userAddress (k : Bytes) (a : Address) : Encodes (.user k) (.address a) (addressBytes a)
  | userEntityKey (k : Bytes) (b : B256) : Encodes (.user k) (.entityKey b) (b256Bytes b)

/-- A value under a key. -/
def Value (key : AnnotKey) (t : Token) (v : AnnotVal) : Prop :=
  ∃ lit, Denotes t lit ∧ Encodes key lit v

/-- The values that have an order: no address and no entity key. -/
def Ordered (t : Token) : Prop := (∀ a, t ≠ .address a) ∧ ∀ b, t ≠ .entityKey b

/-- A text with one star, at its end, under the content type or a user key. -/
inductive Pattern : AnnotKey → Token → AnnotVal → Prop where
  | contentType {s : List Char} (h : '*' ∉ s) :
      Pattern (.builtIn .contentType) (.stringLit (s ++ ['*'])) (utf8Bytes s)
  | user (k : Bytes) {s : List Char} (h : '*' ∉ s) :
      Pattern (.user k) (.stringLit (s ++ ['*'])) (utf8Bytes s)

/-- The operators on one value of any kind. -/
inductive Compares : Token → (AnnotKey → AnnotVal → Query) → Prop where
  | eq : Compares .eq .eq
  | neq : Compares .neq .neq

/-- The range operators. -/
inductive Ranges : Token → (AnnotKey → AnnotVal → Query) → Prop where
  | gt : Ranges .gt .gt
  | gte : Ranges .gte .gte
  | lt : Ranges .lt .lt
  | lte : Ranges .lte .lte

/-- The glob operators. -/
inductive Globs : Token → (AnnotKey → AnnotVal → Query) → Prop where
  | glob : Globs .tilde .glob
  | notGlob : Globs .notTilde .notGlob

/-- A key, an operator and its values. -/
inductive Predicate : List Token → Query → Prop where
  | compare {k op t : Token} {key : AnnotKey} {v : AnnotVal} {make : AnnotKey → AnnotVal → Query}
      (hk : Names k key) (hop : Compares op make) (hv : Value key t v) :
      Predicate [k, op, t] (make key v)
  | range {k op t : Token} {key : AnnotKey} {v : AnnotVal} {make : AnnotKey → AnnotVal → Query}
      (hk : Names k key) (hop : Ranges op make) (ht : Ordered t) (hv : Value key t v) :
      Predicate [k, op, t] (make key v)
  | glob {k op t : Token} {key : AnnotKey} {v : AnnotVal} {make : AnnotKey → AnnotVal → Query}
      (hk : Names k key) (hop : Globs op make) (hv : Pattern key t v) :
      Predicate [k, op, t] (make key v)
  | isIn {k : Token} {ts : List Token} {key : AnnotKey} {vs : List AnnotVal}
      (hk : Names k key) (hvs : List.Forall₂ (Value key) ts vs) (hne : vs ≠ []) :
      Predicate (k :: .isIn :: .lParen :: (ts ++ [.rParen])) (.isIn key vs)
  | notIn {k : Token} {ts : List Token} {key : AnnotKey} {vs : List AnnotVal}
      (hk : Names k key) (hvs : List.Forall₂ (Value key) ts vs) (hne : vs ≠ []) :
      Predicate (k :: .not :: .isIn :: .lParen :: (ts ++ [.rParen])) (.notIn key vs)

inductive Level where
  | term
  | and
  | or

/-- Derivations. Conjunctions of terms and disjunctions of conjunctions group from the left; an
    expression in parentheses, negated or not, is a term. -/
inductive Derives : Level → List Token → Query → Prop where
  | predicate {ts : List Token} {q : Query} (h : Predicate ts q) : Derives .term ts q
  | parens {ts : List Token} {q : Query} (h : Derives .or ts q) :
      Derives .term (.lParen :: (ts ++ [.rParen])) q
  | not {ts : List Token} {q : Query} (h : Derives .or ts q) :
      Derives .term (.not :: .lParen :: (ts ++ [.rParen])) (.not q)
  | single {ts : List Token} {q : Query} (h : Derives .term ts q) : Derives .and ts q
  | and {ts us : List Token} {q r : Query} (hl : Derives .and ts q) (hr : Derives .term us r) :
      Derives .and (ts ++ .and :: us) (.and q r)
  | disjunct {ts : List Token} {q : Query} (h : Derives .and ts q) : Derives .or ts q
  | or {ts us : List Token} {q r : Query} (hl : Derives .or ts q) (hr : Derives .and us r) :
      Derives .or (ts ++ .or :: us) (.or q r)

/-- A whole query. -/
inductive TopLevel : List Token → Query → Prop where
  | star : TopLevel [.star] .all
  | dollarAll : TopLevel [.dollarAll] .all
  | expr {ts : List Token} {q : Query} (h : Derives .or ts q) : TopLevel ts q

theorem Predicate.topLevel {ts : List Token} {q : Query} (h : Predicate ts q) : TopLevel ts q :=
  .expr (.disjunct (.single (.predicate h)))

section Values

variable {key : AnnotKey} {lit : Literal} {v : AnnotVal} {t : Token} {ts rest : List Token}

theorem literalOf_iff : literalOf t = .ok lit ↔ Denotes t lit := by
  constructor
  · intro h
    unfold literalOf at h
    split at h
    all_goals first | cases h; constructor | cases h
  · intro h
    cases h <;> rfl

theorem decodeEntityKeyString_iff {s : List Char} {bytes : Bytes} :
    decodeEntityKeyString s = .ok bytes ↔ ∃ x digits, s = '0' :: x :: digits ∧
      (x = 'x' ∨ x = 'X') ∧ (utf8Bytes digits).length = 64 ∧ hexDecode digits = some bytes := by
  have hstrip : ∀ digits, stripHexPrefix s = some digits ↔
      ∃ x, s = '0' :: x :: digits ∧ (x = 'x' ∨ x = 'X') := by
    intro digits
    constructor
    · intro h
      unfold stripHexPrefix at h
      split at h
      · exact ⟨_, by rw [Option.some.inj h], .inl rfl⟩
      · exact ⟨_, by rw [Option.some.inj h], .inr rfl⟩
      · cases h
    · rintro ⟨x, rfl, rfl | rfl⟩ <;> rfl
  constructor
  · intro h
    unfold decodeEntityKeyString at h
    split at h
    · cases h
    · next digits hdigits =>
      obtain ⟨x, rfl, hx⟩ := (hstrip digits).mp hdigits
      split_ifs at h with hsize
      split at h
      · next bytes' hbytes =>
        obtain rfl := Except.ok.inj h
        exact ⟨x, digits, rfl, hx, not_not.mp hsize, hbytes⟩
      · cases h
  · rintro ⟨x, digits, rfl, hx, hsize, hbytes⟩
    rw [decodeEntityKeyString, (hstrip digits).mpr ⟨x, rfl, hx⟩]
    simp only [hsize, ne_eq, not_true_eq_false, if_false, hbytes]

/-- The matrix of keys and literals. -/
theorem encodeForKey_iff : encodeForKey key lit = .ok v ↔ Encodes key lit v := by
  constructor
  · intro h
    unfold encodeForKey at h
    split at h
    case h_6 =>
      obtain ⟨x, digits, rfl, hx, hsize, hbytes⟩ := decodeEntityKeyString_iff.mp h
      exact .quotedKey hx hsize hbytes
    all_goals
      first
        | exact absurd h (by simp only [reduceCtorEq, not_false_eq_true])
        | obtain rfl := Except.ok.inj h
          constructor
  · intro h
    cases h
    case quotedKey x digits hx hsize hbytes =>
      exact decodeEntityKeyString_iff.mpr ⟨x, digits, rfl, hx, hsize, hbytes⟩
    all_goals rfl

theorem valueOf_iff : valueOf key t = .ok v ↔ Value key t v := by
  rw [valueOf, Runs.ok_bind]
  simp only [literalOf_iff, encodeForKey_iff]
  rfl

theorem map_ok_iff {ε α β : Type} {x : Except ε α} {f : α → β} {b : β} :
    x.map f = .ok b ↔ ∃ a, x = .ok a ∧ f a = b := by
  cases x <;> simp [Except.map]

theorem parseValue_iff : parseValue key ts = .ok (v, rest) ↔ ∃ t, ts = t :: rest ∧ Value key t v := by
  cases ts with
  | nil => simp [parseValue]
  | cons t ts =>
    rw [parseValue, map_ok_iff]
    simp only [valueOf_iff, Prod.mk.injEq]
    constructor
    · rintro ⟨v', hv, rfl, rfl⟩
      exact ⟨t, rfl, hv⟩
    · rintro ⟨t', heq, hv⟩
      cases heq
      exact ⟨v, hv, rfl, rfl⟩

theorem parseAnnotKey_iff :
    parseAnnotKey ts = .ok (key, rest) ↔ ∃ k, ts = k :: rest ∧ Names k key := by
  constructor
  · intro h
    unfold parseAnnotKey at h
    split at h
    all_goals first | cases h; exact ⟨_, rfl, by constructor⟩ | cases h
  · rintro ⟨k, rfl, h⟩
    cases h <;> rfl

theorem expect_iff : expect t ts = .ok rest ↔ ts = t :: rest := by
  cases ts with
  | nil => simp [expect]
  | cons u us =>
    rw [expect]
    by_cases h : u = t
    · simp [h]
    · simp [h]

theorem Value.ne_rParen (h : Value key t v) : t ≠ .rParen := by
  rintro rfl
  obtain ⟨lit, hden, -⟩ := h
  cases hden

/-- The loop over the values reads up to a closing parenthesis. -/
theorem parseValues_iff {vals out : List AnnotVal} :
    parseValues key vals ts = .ok (out, rest) ↔ ∃ us vs, ts = us ++ rest ∧
      List.Forall₂ (Value key) us vs ∧ out = vals ++ vs ∧ rest.head? = some .rParen := by
  induction ts generalizing vals with
  | nil =>
    simp only [parseValues, reduceCtorEq, false_iff]
    rintro ⟨us, vs, heq, -, -, hrest⟩
    obtain ⟨-, rfl⟩ := List.append_eq_nil_iff.mp heq.symm
    cases hrest
  | cons t ts ih =>
    rw [parseValues]
    by_cases ht : t = .rParen
    · rw [if_pos ht]
      constructor
      · intro h
        cases h
        exact ⟨[], [], rfl, .nil, by rw [List.append_nil], by rw [ht]; rfl⟩
      · rintro ⟨us, vs, heq, hvs, rfl, hrest⟩
        cases hvs with
        | nil => rw [heq, List.append_nil]; rfl
        | cons hv hvs =>
          cases heq
          exact absurd ht hv.ne_rParen
    · rw [if_neg ht, Runs.ok_bind]
      simp only [valueOf_iff, ih]
      constructor
      · rintro ⟨v, hv, us, vs, rfl, hvs, rfl, hrest⟩
        exact ⟨t :: us, v :: vs, rfl, .cons hv hvs, by simp, hrest⟩
      · rintro ⟨us, vs, heq, hvs, rfl, hrest⟩
        cases hvs with
        | nil =>
          rw [List.nil_append] at heq
          rw [← heq] at hrest
          exact absurd (Option.some.inj hrest) ht
        | cons hv hvs =>
          cases heq
          exact ⟨_, hv, _, _, rfl, hvs, by simp, hrest⟩

theorem parseValueList_iff {vs : List AnnotVal} :
    parseValueList key ts = .ok (vs, rest) ↔ ∃ us, ts = .lParen :: (us ++ .rParen :: rest) ∧
      List.Forall₂ (Value key) us vs ∧ vs ≠ [] := by
  rw [parseValueList, Runs.ok_bind]
  simp only [expect_iff]
  constructor
  · rintro ⟨ts, rfl, h⟩
    obtain ⟨⟨out, ts'⟩, hloop, hafter⟩ := Runs.ok_bind.mp h
    obtain ⟨us, vs', rfl, hvs, rfl, -⟩ := parseValues_iff.mp hloop
    obtain ⟨ts'', hclose, hlast⟩ := Runs.ok_bind.mp hafter
    obtain rfl := expect_iff.mp hclose
    split_ifs at hlast with hne
    cases hlast
    exact ⟨us, rfl, hvs, hne⟩
  · rintro ⟨us, rfl, hvs, hne⟩
    refine ⟨_, rfl, ?_⟩
    have hloop : parseValues key [] (us ++ .rParen :: rest) = .ok (vs, .rParen :: rest) :=
      parseValues_iff.mpr ⟨us, vs, rfl, hvs, rfl, rfl⟩
    refine Runs.ok_bind.mpr ⟨_, hloop, Runs.ok_bind.mpr ⟨rest, expect_iff.mpr rfl, ?_⟩⟩
    exact if_neg hne

theorem parseRange_iff :
    parseRange key ts = .ok (v, rest) ↔ ∃ t, ts = t :: rest ∧ Ordered t ∧ Value key t v := by
  have hreject : rejectRangeOnRandomDistribution ts = .ok () ↔ ∀ t ∈ ts.head?, Ordered t := by
    constructor
    · intro h t ht
      unfold rejectRangeOnRandomDistribution at h
      split at h
      · cases h
      · cases h
      · next haddress hkey =>
        obtain ⟨us, rfl⟩ := List.head?_eq_some_iff.mp ht
        exact ⟨fun a heq => haddress a us (by rw [heq]), fun b heq => hkey b us (by rw [heq])⟩
    · intro h
      unfold rejectRangeOnRandomDistribution
      split
      · next a us => exact absurd rfl ((h _ rfl).1 a)
      · next b us => exact absurd rfl ((h _ rfl).2 b)
      · rfl
  rw [parseRange, Runs.ok_bind]
  simp only [parseValue_iff, hreject]
  constructor
  · rintro ⟨-, hordered, t, rfl, hv⟩
    exact ⟨t, rfl, hordered t rfl, hv⟩
  · rintro ⟨t, rfl, hordered, hv⟩
    refine ⟨(), fun u hu => ?_, t, rfl, hv⟩
    obtain rfl := Option.some.inj hu
    exact hordered

/-- The prefix of a text with one star, at its end. -/
theorem globPrefix_iff {s : List Char} :
    globPrefix s = .ok v ↔ ∃ u, s = u ++ ['*'] ∧ '*' ∉ u ∧ v = utf8Bytes u := by
  rw [globPrefix]
  constructor
  · intro h
    split_ifs at h with hlast hinner
    refine ⟨s.dropLast, ?_, hinner, (Except.ok.inj h).symm⟩
    exact (List.dropLast_append_getLast? '*' hlast).symm
  · rintro ⟨u, rfl, hu, rfl⟩
    rw [if_pos (by simp), List.dropLast_concat, if_neg hu]

theorem parseGlobPattern_iff :
    parseGlobPattern key ts = .ok (v, rest) ↔ ∃ t, ts = t :: rest ∧ Pattern key t v := by
  have hkey : globKey key = .ok () ↔ key = .builtIn .contentType ∨ ∃ k, key = .user k := by
    cases key with
    | builtIn b => cases b <;> simp [globKey]
    | user k => simp [globKey]
  constructor
  · intro h
    rw [parseGlobPattern] at h
    obtain ⟨_, hglob, h⟩ := Runs.ok_bind.mp h
    rw [hkey] at hglob
    obtain ⟨⟨lit, ts'⟩, hlit, h⟩ := Runs.ok_bind.mp h
    cases ts with
    | nil => cases hlit
    | cons t ts =>
      obtain ⟨lit', hden, heq⟩ := map_ok_iff.mp hlit
      cases heq
      cases literalOf_iff.mp hden with
      | string s =>
        obtain ⟨v', hprefix, h⟩ := Runs.ok_bind.mp h
        obtain ⟨u, rfl, hu, rfl⟩ := globPrefix_iff.mp hprefix
        cases h
        refine ⟨_, rfl, ?_⟩
        obtain rfl | ⟨k, rfl⟩ := hglob
        · exact .contentType hu
        · exact .user k hu
      | number n => cases h
      | address a => cases h
      | entityKey b => cases h
  · rintro ⟨t, rfl, h⟩
    have hparse : ∀ s : List Char, '*' ∉ s → globKey key = .ok () →
        parseGlobPattern key (.stringLit (s ++ ['*']) :: rest) = .ok (utf8Bytes s, rest) := by
      intro s hs hglob
      refine Runs.ok_bind.mpr ⟨(), hglob, ?_⟩
      show (globPrefix (s ++ ['*']) >>= _) = _
      rw [globPrefix_iff.mpr ⟨s, rfl, hs, rfl⟩]
      rfl
    cases h with
    | contentType hs => exact hparse _ hs (hkey.mpr (.inl rfl))
    | user k hs => exact hparse _ hs (hkey.mpr (.inr ⟨k, rfl⟩))

/-- **Predicates** are read from the front of the tokens. -/
theorem parsePredicate_iff {q : Query} :
    parsePredicate ts = .ok (q, rest) ↔ ∃ us, ts = us ++ rest ∧ Predicate us q := by
  rw [parsePredicate, Runs.ok_bind]
  constructor
  · rintro ⟨⟨key, ts'⟩, hkey, h⟩
    obtain ⟨k, rfl, hk⟩ := parseAnnotKey_iff.mp hkey
    dsimp only at h
    split at h
    case h_1 | h_2 =>
      obtain ⟨⟨v, ts''⟩, hparse, hq⟩ := Runs.ok_bind.mp h
      obtain ⟨t, rfl, hv⟩ := parseValue_iff.mp hparse
      cases hq
      exact ⟨[_, _, t], rfl, .compare hk (by constructor) hv⟩
    case h_3 =>
      obtain ⟨us, hin, hlist⟩ := Runs.ok_bind.mp h
      obtain rfl := expect_iff.mp hin
      obtain ⟨⟨vs, ts''⟩, hvs, hq⟩ := Runs.ok_bind.mp hlist
      obtain ⟨us, rfl, hvs, hne⟩ := parseValueList_iff.mp hvs
      cases hq
      exact ⟨_, by simp, .notIn hk hvs hne⟩
    case h_4 =>
      obtain ⟨⟨vs, ts''⟩, hvs, hq⟩ := Runs.ok_bind.mp h
      obtain ⟨us, rfl, hvs, hne⟩ := parseValueList_iff.mp hvs
      cases hq
      exact ⟨_, by simp, .isIn hk hvs hne⟩
    case h_5 | h_6 | h_7 | h_8 =>
      obtain ⟨⟨v, ts''⟩, hparse, hq⟩ := Runs.ok_bind.mp h
      obtain ⟨t, rfl, ht, hv⟩ := parseRange_iff.mp hparse
      cases hq
      exact ⟨[_, _, t], rfl, .range hk (by constructor) ht hv⟩
    case h_9 | h_10 =>
      obtain ⟨⟨v, ts''⟩, hparse, hq⟩ := Runs.ok_bind.mp h
      obtain ⟨t, rfl, hv⟩ := parseGlobPattern_iff.mp hparse
      cases hq
      exact ⟨[_, _, t], rfl, .glob hk (by constructor) hv⟩
    · cases h
    · cases h
  · rintro ⟨us, rfl, h⟩
    cases h with
    | compare hk hop hv =>
      refine ⟨_, parseAnnotKey_iff.mpr ⟨_, rfl, hk⟩, ?_⟩
      cases hop <;> exact Runs.ok_bind.mpr ⟨_, parseValue_iff.mpr ⟨_, rfl, hv⟩, rfl⟩
    | range hk hop ht hv =>
      refine ⟨_, parseAnnotKey_iff.mpr ⟨_, rfl, hk⟩, ?_⟩
      cases hop <;> exact Runs.ok_bind.mpr ⟨_, parseRange_iff.mpr ⟨_, rfl, ht, hv⟩, rfl⟩
    | glob hk hop hv =>
      refine ⟨_, parseAnnotKey_iff.mpr ⟨_, rfl, hk⟩, ?_⟩
      cases hop <;> exact Runs.ok_bind.mpr ⟨_, parseGlobPattern_iff.mpr ⟨_, rfl, hv⟩, rfl⟩
    | @isIn k us key vs hk hvs hne =>
      have hlist : parseValueList key (.lParen :: (us ++ .rParen :: rest)) = .ok (vs, rest) :=
        parseValueList_iff.mpr ⟨us, rfl, hvs, hne⟩
      refine ⟨_, parseAnnotKey_iff.mpr ⟨_, rfl, hk⟩, Runs.ok_bind.mpr ⟨(vs, rest), ?_, rfl⟩⟩
      simpa using hlist
    | @notIn k us key vs hk hvs hne =>
      have hlist : parseValueList key (.lParen :: (us ++ .rParen :: rest)) = .ok (vs, rest) :=
        parseValueList_iff.mpr ⟨us, rfl, hvs, hne⟩
      refine ⟨_, parseAnnotKey_iff.mpr ⟨_, rfl, hk⟩, ?_⟩
      refine Runs.ok_bind.mpr ⟨_, expect_iff.mpr rfl, Runs.ok_bind.mpr ⟨(vs, rest), ?_, rfl⟩⟩
      simpa using hlist

end Values

section Chains

variable {separator : Token} {combine : Query → Query → Query} {operand : Parser Query}
  {C D : List Token → Query → Prop} {q r : Query} {ts rest : List Token}

/-- What a parser reads from the front of the tokens has a property. -/
def Reads (p : Parser Query) (D : List Token → Query → Prop) : Prop :=
  ∀ ts q rest, p ts = .ok (q, rest) → ∃ us, ts = us ++ rest ∧ D us q

theorem Reads.length_le (h : Reads operand D) (hok : operand ts = .ok (q, rest)) :
    rest.length ≤ ts.length := by
  obtain ⟨us, rfl, -⟩ := h ts q rest hok
  simp

/-- The loop extends what has been read by a separator and an operand in each round. -/
theorem reads_chainLoop (hoperand : Reads operand D)
    (hcombine : ∀ us vs q r, C us q → D vs r → C (us ++ separator :: vs) (combine q r)) :
    ∀ rounds q r ts rest us, C us q →
      chainLoop separator combine operand rounds q ts = .ok (r, rest) →
      ∃ vs, ts = vs ++ rest ∧ C (us ++ vs) r := by
  intro rounds
  induction rounds with
  | zero =>
    intro q r ts rest us hus h
    cases h
    exact ⟨[], rfl, by rwa [List.append_nil]⟩
  | succ rounds ih =>
    intro q r ts rest us hus h
    rw [chainLoop] at h
    split_ifs at h with hsep
    · obtain ⟨⟨rhs, ts'⟩, hrhs, hloop⟩ := Runs.ok_bind.mp h
      obtain ⟨vs, htail, hvs⟩ := hoperand _ _ _ hrhs
      obtain ⟨ws, rfl, hws⟩ := ih _ _ _ _ _ (hcombine us vs q rhs hus hvs) hloop
      obtain ⟨tail, rfl⟩ := List.head?_eq_some_iff.mp hsep
      refine ⟨separator :: (vs ++ ws), by simpa using htail, ?_⟩
      simpa using hws
    · cases h
      exact ⟨[], rfl, by rwa [List.append_nil]⟩

theorem reads_chain (hoperand : Reads operand D) (hbase : ∀ us q, D us q → C us q)
    (hcombine : ∀ us vs q r, C us q → D vs r → C (us ++ separator :: vs) (combine q r)) :
    Reads (chain separator combine operand) C := by
  intro ts q rest h
  obtain ⟨⟨r, ts'⟩, hr, hloop⟩ := Runs.ok_bind.mp h
  obtain ⟨us, rfl, hus⟩ := hoperand _ _ _ hr
  obtain ⟨vs, rfl, hvs⟩ :=
    reads_chainLoop hoperand hcombine _ _ _ _ _ us (hbase us r hus) hloop
  exact ⟨us ++ vs, by rw [List.append_assoc], hvs⟩

/-- Rounds beyond the number of tokens do nothing. -/
theorem chainLoop_rounds (hoperand : Reads operand D) : ∀ n m q ts, ts.length ≤ n → ts.length ≤ m →
    chainLoop separator combine operand n q ts = chainLoop separator combine operand m q ts := by
  intro n
  induction n with
  | zero =>
    intro m q ts hn hm
    obtain rfl := List.length_eq_zero_iff.mp (Nat.le_zero.mp hn)
    cases m <;> rfl
  | succ n ih =>
    intro m q ts hn hm
    cases m with
    | zero =>
      obtain rfl := List.length_eq_zero_iff.mp (Nat.le_zero.mp hm)
      rfl
    | succ m =>
      rw [chainLoop, chainLoop]
      by_cases hsep : ts.head? = some separator
      · rw [if_pos hsep, if_pos hsep]
        cases hrhs : operand ts.tail with
        | error e => rfl
        | ok x =>
          have hle := hoperand.length_le hrhs
          rw [List.length_tail] at hle
          exact ih m _ _ (by omega) (by omega)
      · rw [if_neg hsep, if_neg hsep]

/-- The loop with as many rounds as tokens. -/
theorem chainLoop_separator (hoperand : Reads operand D)
    (h : operand ts = .ok (r, rest)) :
    chainLoop separator combine operand (separator :: ts).length q (separator :: ts) =
      chainLoop separator combine operand rest.length (combine q r) rest := by
  rw [List.length_cons, chainLoop, if_pos (by rfl), List.tail_cons, h]
  exact chainLoop_rounds hoperand _ _ _ _ (hoperand.length_le h) le_rfl

theorem chainLoop_done (h : rest.head? ≠ some separator) :
    chainLoop separator combine operand rest.length q rest = .ok (q, rest) := by
  cases rest with
  | nil => rfl
  | cons t ts => rw [List.length_cons, chainLoop, if_neg h]

theorem chain_of_operand (h : operand ts = .ok (q, rest)) :
    chain separator combine operand ts =
      chainLoop separator combine operand rest.length q rest := by
  rw [chain, h]
  rfl

end Chains

section Nesting

variable {inner : Parser Query} {depth : ℕ}

/-- Terms read what the grammar derives if the expressions in parentheses do. -/
theorem reads_parseTerm (hinner : Reads inner (Derives .or)) :
    Reads (parseTerm inner) (Derives .term) := by
  intro ts q rest h
  unfold parseTerm at h
  split at h
  · obtain ⟨ts', hopen, h₁⟩ := Runs.ok_bind.mp h
    obtain rfl := expect_iff.mp hopen
    obtain ⟨⟨r, ts'⟩, hr, h₂⟩ := Runs.ok_bind.mp h₁
    obtain ⟨us, rfl, hus⟩ := hinner _ _ _ hr
    obtain ⟨ts'', hclose, hq⟩ := Runs.ok_bind.mp h₂
    obtain rfl := expect_iff.mp hclose
    cases hq
    exact ⟨_, by simp, .not hus⟩
  · obtain ⟨⟨r, ts'⟩, hr, h₁⟩ := Runs.ok_bind.mp h
    obtain ⟨us, rfl, hus⟩ := hinner _ _ _ hr
    obtain ⟨ts'', hclose, hq⟩ := Runs.ok_bind.mp h₁
    obtain rfl := expect_iff.mp hclose
    cases hq
    exact ⟨_, by simp, .parens hus⟩
  · obtain ⟨us, rfl, hus⟩ := parsePredicate_iff.mp h
    exact ⟨us, rfl, .predicate hus⟩

theorem reads_parseAnd (hinner : Reads inner (Derives .or)) :
    Reads (parseAnd inner) (Derives .and) :=
  reads_chain (reads_parseTerm hinner) (fun _ _ => .single) fun _ _ _ _ => .and

/-- **Soundness**, by induction on the depth of the parentheses. -/
theorem reads_parseOr : Reads (parseOr depth) (Derives .or) := by
  induction depth with
  | zero =>
    intro ts q rest h
    cases h
  | succ depth ih => exact reads_chain (reads_parseAnd ih) (fun _ _ => .disjunct) fun _ _ _ _ => .or

/-- What the parser of a level does with a derived front: a chain goes on with its loop. -/
def Accepts (depth : ℕ) (ts : List Token) (q : Query) (rest : List Token) : Level → Prop
  | .term => parseTerm (parseOr depth) (ts ++ rest) = .ok (q, rest)
  | .and => parseAnd (parseOr depth) (ts ++ rest) =
      chainLoop .and .and (parseTerm (parseOr depth)) rest.length q rest
  | .or => rest.head? ≠ some .and → parseOr (depth + 1) (ts ++ rest) =
      chainLoop .or .or (parseAnd (parseOr depth)) rest.length q rest

theorem parseTerm_predicate {ts us : List Token} {q : Query} (h : Predicate us q) :
    parseTerm inner (us ++ ts) = parsePredicate (us ++ ts) := by
  have hkey : ∀ k key rest, Names k key → parseTerm inner (k :: rest) = parsePredicate (k :: rest) := by
    intro k key rest hk
    cases hk <;> rfl
  cases h with
  | compare hk => exact hkey _ _ _ hk
  | range hk => exact hkey _ _ _ hk
  | glob hk => exact hkey _ _ _ hk
  | isIn hk => exact hkey _ _ _ hk
  | notIn hk => exact hkey _ _ _ hk

/-- A disjunction in parentheses is read up to the closing one. -/
theorem Accepts.parens {ts rest : List Token} {q : Query}
    (h : Accepts depth ts q (.rParen :: rest) .or) :
    parseOr (depth + 1) (ts ++ .rParen :: rest) = .ok (q, .rParen :: rest) :=
  (h (by simp)).trans (chainLoop_done (by simp))

/-- **Completeness**, by induction on the derivation. -/
theorem Derives.accepts {level : Level} {ts : List Token} {q : Query} (h : Derives level ts q) :
    ∀ depth, ts.length ≤ depth → ∀ rest, Accepts depth ts q rest level := by
  induction h with
  | predicate h =>
    intro depth _ rest
    exact (parseTerm_predicate h).trans (parsePredicate_iff.mpr ⟨_, rfl, h⟩)
  | @parens ts q h ih =>
    intro depth hdepth rest
    simp only [List.length_cons, List.length_append] at hdepth
    obtain ⟨depth, rfl⟩ := Nat.exists_eq_succ_of_ne_zero (show depth ≠ 0 by omega)
    have hinner := (ih depth (by omega) (.rParen :: rest)).parens
    show parseTerm (parseOr (depth + 1)) (.lParen :: (ts ++ [.rParen]) ++ rest) = _
    rw [List.cons_append, List.append_assoc]
    exact Runs.ok_bind.mpr ⟨_, hinner, Runs.ok_bind.mpr ⟨_, expect_iff.mpr rfl, rfl⟩⟩
  | @not ts q h ih =>
    intro depth hdepth rest
    simp only [List.length_cons, List.length_append] at hdepth
    obtain ⟨depth, rfl⟩ := Nat.exists_eq_succ_of_ne_zero (show depth ≠ 0 by omega)
    have hinner := (ih depth (by omega) (.rParen :: rest)).parens
    show parseTerm (parseOr (depth + 1)) (.not :: .lParen :: (ts ++ [.rParen]) ++ rest) = _
    rw [List.cons_append, List.cons_append, List.append_assoc]
    refine Runs.ok_bind.mpr ⟨_, expect_iff.mpr rfl, ?_⟩
    exact Runs.ok_bind.mpr ⟨_, hinner, Runs.ok_bind.mpr ⟨_, expect_iff.mpr rfl, rfl⟩⟩
  | single h ih =>
    intro depth hdepth rest
    exact chain_of_operand (ih depth hdepth rest)
  | @and ts us q r hl hr ihl ihr =>
    intro depth hdepth rest
    rw [List.length_append, List.length_cons] at hdepth
    have hleft := ihl depth (by omega) (.and :: (us ++ rest))
    show parseAnd (parseOr depth) (ts ++ .and :: us ++ rest) = _
    rw [List.append_assoc]
    exact hleft.trans (chainLoop_separator (reads_parseTerm reads_parseOr) (ihr depth (by omega) rest))
  | disjunct h ih =>
    intro depth hdepth rest hrest
    exact chain_of_operand ((ih depth hdepth rest).trans (chainLoop_done hrest))
  | @or ts us q r hl hr ihl ihr =>
    intro depth hdepth rest hrest
    rw [List.length_append, List.length_cons] at hdepth
    have hleft := ihl depth (by omega) (.or :: (us ++ rest)) (by simp)
    have hright := (ihr depth (by omega) rest).trans (chainLoop_done hrest)
    rw [List.append_assoc]
    exact hleft.trans (chainLoop_separator (reads_parseAnd reads_parseOr) hright)

end Nesting

theorem Names.ne_all {k : Token} {key : AnnotKey} (h : Names k key) :
    k ≠ .star ∧ k ≠ .dollarAll := by
  cases h <;> simp

/-- No expression is empty, and none starts with `*` or `$all`. -/
theorem Derives.head {level : Level} {ts : List Token} {q : Query} (h : Derives level ts q) :
    ∃ t us, ts = t :: us ∧ t ≠ .star ∧ t ≠ .dollarAll := by
  induction h with
  | predicate h =>
    cases h with
    | compare hk => exact ⟨_, _, rfl, hk.ne_all⟩
    | range hk => exact ⟨_, _, rfl, hk.ne_all⟩
    | glob hk => exact ⟨_, _, rfl, hk.ne_all⟩
    | isIn hk => exact ⟨_, _, rfl, hk.ne_all⟩
    | notIn hk => exact ⟨_, _, rfl, hk.ne_all⟩
  | parens h ih => exact ⟨_, _, rfl, by simp⟩
  | not h ih => exact ⟨_, _, rfl, by simp⟩
  | single h ih => exact ih
  | disjunct h ih => exact ih
  | and hl hr ihl ihr =>
    obtain ⟨t, us, rfl, ht⟩ := ihl
    exact ⟨t, _, rfl, ht⟩
  | or hl hr ihl ihr =>
    obtain ⟨t, us, rfl, ht⟩ := ihl
    exact ⟨t, _, rfl, ht⟩

section Fuel

variable {α β : Type} {x : Except ParseError α} {f : α → Except ParseError β} {ts : List Token}
  {key : AnnotKey}

/-- The result does not come from running out of depth. -/
def Ends (x : Except ParseError α) : Prop := x ≠ .error .fuel

theorem Ends.bind (hx : Ends x) (hf : ∀ a, x = .ok a → Ends (f a)) : Ends (x >>= f) := by
  cases x with
  | error e => exact fun h => hx (by cases h; rfl)
  | ok a => exact hf a rfl

theorem Ends.map (hx : Ends x) (g : α → β) : Ends (x.map g) := by
  cases x with
  | error e => exact fun h => hx (by cases h; rfl)
  | ok a => exact fun h => by cases h

theorem ends_ok (a : α) : Ends (.ok a) := fun h => by cases h

theorem ends_expect {t : Token} : Ends (expect t ts) := by
  unfold expect
  split
  · simp [Ends]
  · split <;> simp [Ends]

theorem ends_parseAnnotKey : Ends (parseAnnotKey ts) := by
  unfold parseAnnotKey
  split <;> simp [Ends]

theorem ends_literalOf {t : Token} : Ends (literalOf t) := by
  unfold literalOf
  split <;> simp [Ends]

theorem ends_encodeForKey {lit : Literal} : Ends (encodeForKey key lit) := by
  unfold encodeForKey
  split
  case h_6 =>
    unfold decodeEntityKeyString
    split
    · simp [Ends]
    · split
      · simp [Ends]
      · split <;> simp [Ends]
  all_goals simp [Ends]

theorem ends_valueOf {t : Token} : Ends (valueOf key t) :=
  ends_literalOf.bind fun _ _ => ends_encodeForKey

theorem ends_parseValue : Ends (parseValue key ts) := by
  cases ts with
  | nil => simp [parseValue, Ends]
  | cons t ts => exact ends_valueOf.map _

theorem ends_parseValues {vals : List AnnotVal} : Ends (parseValues key vals ts) := by
  induction ts generalizing vals with
  | nil => simp [parseValues, Ends]
  | cons t ts ih =>
    rw [parseValues]
    split
    · exact ends_ok _
    · exact ends_valueOf.bind fun _ _ => ih

theorem ends_parseValueList : Ends (parseValueList key ts) := by
  refine ends_expect.bind fun ts _ => ends_parseValues.bind fun x _ => ends_expect.bind fun ts _ => ?_
  split
  · simp [Ends]
  · exact ends_ok _

theorem ends_parseRange : Ends (parseRange key ts) := by
  refine Ends.bind ?_ fun _ _ => ends_parseValue
  unfold rejectRangeOnRandomDistribution
  split <;> simp [Ends]

theorem ends_parseGlobPattern : Ends (parseGlobPattern key ts) := by
  refine Ends.bind ?_ fun _ _ => Ends.bind ?_ fun x _ => ?_
  · unfold globKey
    split <;> simp [Ends]
  · cases ts with
    | nil => simp [parseLiteral, Ends]
    | cons t ts => exact ends_literalOf.map _
  · split
    · refine Ends.bind ?_ fun _ _ => ends_ok _
      unfold globPrefix
      split
      · split <;> simp [Ends]
      · simp [Ends]
    · simp [Ends]

theorem ends_parsePredicate : Ends (parsePredicate ts) := by
  refine ends_parseAnnotKey.bind fun x _ => ?_
  obtain ⟨key, us⟩ := x
  dsimp only
  split
  case h_3 => exact ends_expect.bind fun _ _ => ends_parseValueList.bind fun _ _ => ends_ok _
  case h_4 => exact ends_parseValueList.bind fun _ _ => ends_ok _
  case h_1 | h_2 => exact ends_parseValue.bind fun _ _ => ends_ok _
  case h_5 | h_6 | h_7 | h_8 => exact ends_parseRange.bind fun _ _ => ends_ok _
  case h_9 | h_10 => exact ends_parseGlobPattern.bind fun _ _ => ends_ok _
  all_goals simp [Ends]

/-- The parser ends on lists up to a length. -/
def EndsUpTo (n : ℕ) (p : Parser Query) : Prop := ∀ ts, ts.length ≤ n → Ends (p ts)

theorem EndsUpTo.chain {n : ℕ} {operand : Parser Query} {D : List Token → Query → Prop}
    (h : EndsUpTo n operand) (hreads : Reads operand D) (separator : Token)
    (combine : Query → Query → Query) : EndsUpTo n (chain separator combine operand) := by
  have hloop : ∀ rounds q ts, ts.length ≤ n →
      Ends (chainLoop separator combine operand rounds q ts) := by
    intro rounds
    induction rounds with
    | zero => exact fun q ts _ => ends_ok _
    | succ rounds ih =>
      intro q ts hts
      rw [chainLoop]
      split
      · have htail : ts.tail.length ≤ n := by
          rw [List.length_tail]
          omega
        exact (h _ htail).bind fun x hx => ih _ _ ((hreads.length_le hx).trans htail)
      · exact ends_ok _
  intro ts hts
  exact (h ts hts).bind fun x hx => hloop _ _ _ ((hreads.length_le hx).trans hts)

/-- A parenthesis takes a token, so what is inside it is shorter. -/
theorem EndsUpTo.parseTerm {n : ℕ} {inner : Parser Query} (h : EndsUpTo n inner) :
    EndsUpTo (n + 1) (parseTerm inner) := by
  intro ts hts
  unfold Arkiv.parseTerm
  split
  · refine ends_expect.bind fun us hus => ?_
    obtain rfl := expect_iff.mp hus
    simp only [List.length_cons] at hts
    exact (h us (by omega)).bind fun x _ => ends_expect.bind fun _ _ => ends_ok _
  · simp only [List.length_cons] at hts
    exact (h _ (by omega)).bind fun x _ => ends_expect.bind fun _ _ => ends_ok _
  · exact ends_parsePredicate

end Fuel

section Whole

variable {ts : List Token} {q : Query}

theorem all_iff_head :
    (ts.head? = some .star ∨ ts.head? = some .dollarAll) ↔
      ∃ t us, ts = t :: us ∧ (t = .star ∨ t = .dollarAll) := by
  cases ts with
  | nil => simp
  | cons t us => simp

theorem not_derives_all {t : Token} {us : List Token} (ht : t = .star ∨ t = .dollarAll) :
    ¬Derives .or (t :: us) q := by
  intro h
  obtain ⟨t', us', heq, hstar, hdollar⟩ := h.head
  obtain ⟨rfl, -⟩ := List.cons.inj heq
  exact ht.elim hstar hdollar

/-- A derived list is parsed as its query. -/
theorem TopLevel.parse (h : TopLevel ts q) : parseTopLevel ts = .ok q := by
  cases h with
  | star => rfl
  | dollarAll => rfl
  | expr h =>
    have hall : ¬(ts.head? = some .star ∨ ts.head? = some .dollarAll) := by
      intro hall
      obtain ⟨t, us, rfl, ht⟩ := all_iff_head.mp hall
      exact not_derives_all ht h
    have haccepts := h.accepts ts.length le_rfl [] (by simp)
    rw [List.append_nil] at haccepts
    rw [parseTopLevel, if_neg hall, haccepts]
    rfl

/-- A parsed list is derived, whole. -/
theorem TopLevel.of_parse (h : parseTopLevel ts = .ok q) : TopLevel ts q := by
  unfold parseTopLevel at h
  split_ifs at h with hall
  · obtain ⟨t, us, rfl, ht⟩ := all_iff_head.mp hall
    rw [List.tail_cons] at h
    cases us with
    | nil =>
      obtain rfl := Except.ok.inj h
      obtain rfl | rfl := ht
      · exact .star
      · exact .dollarAll
    | cons u us => cases h
  · split at h
    · next q' hor =>
      obtain rfl := Except.ok.inj h
      obtain ⟨us, hus, hderives⟩ := reads_parseOr _ _ _ hor
      rw [List.append_nil] at hus
      exact .expr (hus ▸ hderives)
    · cases h
    · cases h

end Whole

end Arkiv
