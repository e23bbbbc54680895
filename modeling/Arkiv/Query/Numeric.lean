import Mathlib
import Arkiv.Query.Evaluation
import Arkiv.Query.Names

/-!
# Numeric queries

Numbers are posted big-endian at one width for each key: 32 bytes for the words
of the precompile, 8 bytes for the fields of a record. Literals are encoded at
the same widths, so the order of the posted bytes is the order of the numbers.

## Main definitions

- `NumericOp`, `NumericKey` — comparisons, and the keys that hold numbers
- `NumericKey.Holds` — the numbers of an entity under a key
- `numericQuery_iff` — a comparison returns the entities that meet it
-/

namespace Arkiv

open ByteString

/-- The comparisons with a number. -/
inductive NumericOp where
  | eq
  | gt
  | gte
  | lt
  | lte
deriving DecidableEq, Repr

namespace NumericOp

def token : NumericOp → Token
  | eq => .eq
  | gt => .gt
  | gte => .gte
  | lt => .lt
  | lte => .lte

def text : NumericOp → List Char
  | eq => ['=']
  | gt => ['>']
  | gte => ['>', '=']
  | lt => ['<']
  | lte => ['<', '=']

def query : NumericOp → AnnotKey → AnnotVal → Query
  | eq => .eq
  | gt => .gt
  | gte => .gte
  | lt => .lt
  | lte => .lte

/-- `x op n`. -/
def Holds : NumericOp → ℕ → ℕ → Prop
  | eq, x, n => x = n
  | gt, x, n => n < x
  | gte, x, n => n ≤ x
  | lt, x, n => x < n
  | lte, x, n => x ≤ n

end NumericOp

/-- A user key or one of the two built-in numbers. -/
inductive NumericKey where
  | user (s : List Char)
  | expiration
  | createdAtBlock
deriving DecidableEq, Repr

namespace NumericKey

def token : NumericKey → Token
  | user s => .ident s
  | expiration => .dollarExpiration
  | createdAtBlock => .dollarCreatedAtBlock

def text : NumericKey → List Char
  | user s => s
  | expiration => '$' :: "expiration".toList
  | createdAtBlock => '$' :: "createdAtBlock".toList

def key : NumericKey → AnnotKey
  | user s => .user (utf8Bytes s)
  | expiration => .builtIn .expiration
  | createdAtBlock => .builtIn .createdAtBlock

/-- The width of posted numbers. -/
def width : NumericKey → ℕ
  | user _ => 32
  | expiration => 8
  | createdAtBlock => 8

/-- A user key in which every attribute was converted from an `ATTR_UINT` word. For the built-in
    keys, no attribute goes by their name. -/
def Uniform (live : UInt64 → Option EntityRlp) : NumericKey → Prop
  | user s => ∀ i e, live i = some e → ∀ a ∈ e.attributes, a.key = utf8Bytes s →
      ∃ abi, abi.valueType = attrUint ∧ convertAttribute abi = .ok a
  | _ => ∀ i e, live i = some e → ∀ a ∈ e.attributes, UserKey a.key

/-- The numbers of an entity under a key: the words of its attributes, or the field. -/
def Holds (e : EntityRlp) : NumericKey → ℕ → Prop
  | user s, x => ∃ word : B256, ⟨utf8Bytes s, attrUint, b256Bytes word⟩ ∈ e.attributes ∧ x = word.toNat
  | expiration, x => x = e.expiresAt.toNat
  | createdAtBlock, x => x = e.createdAtBlock.toNat

end NumericKey

/-- The text `key op n`. -/
def numericText (k : NumericKey) (op : NumericOp) (n : UInt64) : List Char :=
  k.text ++ (' ' :: op.text ++ ' ' :: decimalDigits n.toNat)

/-- Its tokens. -/
def numericTokens (k : NumericKey) (op : NumericOp) (n : UInt64) : List Token :=
  [k.token, op.token, .number n]

/-- The query that it stands for. -/
def numericQuery (k : NumericKey) (op : NumericOp) (n : UInt64) : Query :=
  op.query k.key (be k.width n.toNat)

section Parsing

variable {k : NumericKey} {op : NumericOp} {n : UInt64}

theorem NumericKey.names : Names k.token k.key := by
  cases k with
  | user s => exact .user s
  | expiration => exact .expiration
  | createdAtBlock => exact .createdAtBlock

/-- The three encoders of a number agree at each width. -/
theorem NumericKey.value : Value k.key (.number n) (be k.width n.toNat) := by
  cases k with
  | user s =>
    have hbytes : be 32 n.toNat = List.replicate 24 0 ++ u64Bytes n := by
      have hnum : ofBe (List.replicate 24 0 ++ u64Bytes n) = n.toNat := by
        rw [ofBe_replicate_append, u64Bytes, ofBe_be (lt_of_lt_of_eq n.toNat_lt (by norm_num))]
      rw [← hnum, be_ofBe (by simp)]
    show Value (.user (utf8Bytes s)) (.number n) (be 32 n.toNat)
    rw [hbytes]
    exact ⟨_, .number n, .userNumber _ n⟩
  | expiration => exact ⟨_, .number n, .expiration n⟩
  | createdAtBlock => exact ⟨_, .number n, .createdAtBlock n⟩

theorem parseTopLevel_numeric :
    parseTopLevel (numericTokens k op n) = .ok (numericQuery k op n) := by
  have hordered : Ordered (.number n) := ⟨by simp, by simp⟩
  have hpredicate : Predicate (numericTokens k op n) (numericQuery k op n) := by
    cases op with
    | eq => exact .compare NumericKey.names .eq NumericKey.value
    | gt => exact .range NumericKey.names .gt hordered NumericKey.value
    | gte => exact .range NumericKey.names .gte hordered NumericKey.value
    | lt => exact .range NumericKey.names .lt hordered NumericKey.value
    | lte => exact .range NumericKey.names .lte hordered NumericKey.value
  exact hpredicate.topLevel.parse

theorem tokenize_numericText [UnicodeTables] (hk : Spells k.token k.text) :
    tokenize (numericText k op n) = .ok (numericTokens k op n) := by
  have hspace : ∀ c ∈ [' '], isWhitespace c = true := List.all_eq_true.mp (by decide)
  have hsep : ∀ rest, Separated (' ' :: rest) := fun rest c hc => by
    obtain rfl := Option.some.inj hc
    decide
  have hop : Spells op.token op.text := by cases op <;> exact .symbol rfl
  have hlast : Writes [.number n] ([' '] ++ (decimalDigits n.toNat ++ [])) :=
    .cons hspace (spells_decimalDigits n) (.nil (by simp)) (by simp [Separated])
  have htail : Writes [op.token, .number n]
      ([' '] ++ (op.text ++ ([' '] ++ (decimalDigits n.toNat ++ [])))) :=
    .cons hspace hop hlast (hsep _)
  have hall : Writes (numericTokens k op n) (numericText k op n) := by
    have hcons := @Writes.cons _ _ _ [] _ _ (by simp) hk htail (hsep _)
    simpa [numericText, numericTokens] using hcons
  exact Lexer.tokens_of_writes hall (Nat.lt_succ_self _)

theorem NumericKey.spells [UnicodeTables] (hk : ∀ s, k = .user s → tokenize s = .ok [.ident s]) :
    Spells k.token k.text := by
  cases k with
  | user s => exact .ident (tokenize_eq_ident_iff.mp (hk s rfl))
  | expiration => exact .symbol rfl
  | createdAtBlock => exact .symbol rfl

end Parsing

/-- The first byte of a character is the character itself, or above ASCII. -/
theorem utf8EncodeChar_head (c : Char) :
    ∃ b bs, String.utf8EncodeChar c = b :: bs ∧ (b.toNat = c.toNat ∨ 128 ≤ b.toNat) := by
  have hval : c.val.toNat = c.toNat := rfl
  unfold String.utf8EncodeChar
  dsimp only
  split
  · exact ⟨_, _, rfl, .inl (by rw [UInt8.toNat_ofNat']; omega)⟩
  · split
    · exact ⟨_, _, rfl, .inr (by rw [UInt8.toNat_ofNat']; omega)⟩
    · split
      · exact ⟨_, _, rfl, .inr (by rw [UInt8.toNat_ofNat']; omega)⟩
      · exact ⟨_, _, rfl, .inr (by rw [UInt8.toNat_ofNat']; omega)⟩

/-- The bytes of a name do not start like a built-in key. -/
theorem IsName.ne_builtIn [UnicodeTables] {s : List Char} (h : IsName s) {rest : Bytes} :
    utf8Bytes s ≠ 0x24 :: rest := by
  obtain ⟨c, hc, hstart⟩ := h.head
  obtain ⟨cs, rfl⟩ := List.head?_eq_some_iff.mp hc
  obtain ⟨b, bs, hbytes, hb⟩ := utf8EncodeChar_head c
  have hrange := isIdentStart_range hstart
  have hcons : utf8Bytes (c :: cs) = b :: (bs ++ utf8Bytes cs) := by
    rw [utf8Bytes, List.flatMap_cons, hbytes]
    rfl
  rw [hcons]
  intro heq
  obtain ⟨rfl, -⟩ := List.cons.inj heq
  have hdollar : (0x24 : UInt8).toNat = 36 := rfl
  omega

section Meaning

variable {live : UInt64 → Option EntityRlp} {k : NumericKey} {i : UInt64} {e : EntityRlp}

theorem NumericKey.Holds.lt {x : ℕ} (h : k.Holds e x) : x < 256 ^ k.width := by
  cases k with
  | user s =>
    obtain ⟨word, -, rfl⟩ := h
    exact lt_of_lt_of_eq word.isLt (by norm_num [NumericKey.width])
  | expiration =>
    rw [show x = e.expiresAt.toNat from h]
    exact lt_of_lt_of_eq e.expiresAt.toNat_lt (by norm_num [NumericKey.width])
  | createdAtBlock =>
    rw [show x = e.createdAtBlock.toNat from h]
    exact lt_of_lt_of_eq e.createdAtBlock.toNat_lt (by norm_num [NumericKey.width])

/-- An attribute that was converted from an `ATTR_UINT` holds its first word. -/
theorem convertAttribute_uint {abi : AbiAttribute} {a : Attribute} (htype : abi.valueType = attrUint)
    (h : convertAttribute abi = .ok a) :
    a = ⟨ident32ToBytes abi.name, attrUint, b256Bytes (abi.value.get 0)⟩ := by
  unfold convertAttribute at h
  dsimp only at h
  rw [if_pos htype] at h
  obtain ⟨_, -, h⟩ := Runs.ok_bind.mp h
  simp only [pure, Except.pure, Except.ok.injEq] at h
  rw [← h, htype]
  rfl

theorem builtIn_key {creator owner : Address} {entityKey : B256} {created expires : UInt64}
    {contentType : Bytes} {a : Annotation}
    (h : a ∈ builtInAnnotations creator owner entityKey created expires contentType) :
    ∃ rest, a.key = 0x24 :: rest := by
  simp only [builtInAnnotations, List.mem_cons, List.not_mem_nil, or_false] at h
  obtain rfl | rfl | rfl | rfl | rfl | rfl | rfl := h
  all_goals exact ⟨_, rfl⟩

/-- The built-in annotation of a numeric field. -/
theorem annotation_of_builtIn (hkeys : ∀ a ∈ e.attributes, UserKey a.key) {a : Annotation} {x : ℕ}
    {key : Bytes} (hkey : a.key = key) (ha : a ∈ e.annotations)
    (hfield : (key = annotExpiration ∧ x = e.expiresAt.toNat) ∨
      (key = annotCreatedAtBlock ∧ x = e.createdAtBlock.toNat)) : a = ⟨key, be 8 x, true⟩ := by
  obtain hb | hu := List.mem_append.mp ha
  · simp only [builtInAnnotations, List.mem_cons, List.not_mem_nil, or_false] at hb
    obtain ⟨rfl, rfl⟩ | ⟨rfl, rfl⟩ := hfield
    all_goals
      obtain rfl | rfl | rfl | rfl | rfl | rfl | rfl := hb
      all_goals
        first
          | rfl
          | dsimp only at hkey
            exact absurd hkey (by decide)
  · obtain ⟨attr, hattr, rfl⟩ := List.mem_map.mp hu
    obtain ⟨rfl, -⟩ | ⟨rfl, -⟩ := hfield
    all_goals exact absurd hkey (hkeys attr hattr).ne_builtIn

/-- The annotations of an entity under a numeric key are its numbers, all in tier 2. -/
theorem NumericKey.annotation_iff [UnicodeTables] (huniform : k.Uniform live)
    (hname : ∀ s, k = .user s → IsName s) (he : live i = some e) {p : Annotation → Prop} :
    (∃ a ∈ e.annotations, a.key = k.key.pairKeyBytes ∧ p a) ↔
      ∃ x, k.Holds e x ∧ p ⟨k.key.pairKeyBytes, be k.width x, true⟩ := by
  cases k with
  | user s =>
    constructor
    · rintro ⟨a, ha, hkey, hp⟩
      obtain hb | hu := List.mem_append.mp ha
      · obtain ⟨rest, hrest⟩ := builtIn_key hb
        exact absurd (hkey.symm.trans hrest) (hname s rfl).ne_builtIn
      · obtain ⟨attr, hattr, rfl⟩ := List.mem_map.mp hu
        obtain ⟨abi, htype, hconv⟩ := huniform i e he attr hattr hkey
        obtain rfl := convertAttribute_uint htype hconv
        have hkey' : ident32ToBytes abi.name = utf8Bytes s := by
          simpa only [NumericKey.key, AnnotKey.pairKeyBytes] using hkey
        have hmem : ⟨utf8Bytes s, attrUint, b256Bytes abi.value[0]⟩ ∈ e.attributes := by
          rw [← hkey']
          exact hattr
        refine ⟨abi.value[0].toNat, ⟨abi.value[0], hmem, rfl⟩, ?_⟩
        have htier : (attrUint != attrEntityKey) = true := rfl
        dsimp only at hp
        rw [hkey', htier] at hp
        exact hp
    · rintro ⟨x, ⟨word, hword, rfl⟩, hp⟩
      have hann : ⟨utf8Bytes s, b256Bytes word, true⟩ ∈ userAnnotations e.attributes :=
        List.mem_map.mpr ⟨_, hword, rfl⟩
      exact ⟨_, List.mem_append_right _ hann, rfl, hp⟩
  | expiration =>
    constructor
    · rintro ⟨a, ha, hkey, hp⟩
      rw [annotation_of_builtIn (huniform i e he) hkey ha (.inl ⟨rfl, rfl⟩)] at hp
      exact ⟨_, rfl, hp⟩
    · rintro ⟨x, rfl, hp⟩
      have hann : ⟨annotExpiration, u64Bytes e.expiresAt, true⟩ ∈ e.annotations :=
        List.mem_append_left _ (by simp [builtInAnnotations])
      exact ⟨_, hann, rfl, hp⟩
  | createdAtBlock =>
    constructor
    · rintro ⟨a, ha, hkey, hp⟩
      rw [annotation_of_builtIn (huniform i e he) hkey ha (.inr ⟨rfl, rfl⟩)] at hp
      exact ⟨_, rfl, hp⟩
    · rintro ⟨x, rfl, hp⟩
      have hann : ⟨annotCreatedAtBlock, u64Bytes e.createdAtBlock, true⟩ ∈ e.annotations :=
        List.mem_append_left _ (by simp [builtInAnnotations])
      exact ⟨_, hann, rfl, hp⟩

end Meaning

section Evaluation

variable [Keccak] [RoaringFormat] {P : Set (Bytes × Bytes)} {K : Set Bytes} {w : World}
  {live : UInt64 → Option EntityRlp} {k : NumericKey} {op : NumericOp} {n : UInt64}

omit [Keccak] [RoaringFormat] in
/-- The order of posted numbers is the order of the numbers. -/
theorem satisfies_numericQuery [UnicodeTables] (huniform : k.Uniform live)
    (hname : ∀ s, k = .user s → IsName s) {i : UInt64} {e : EntityRlp} (he : live i = some e) :
    Satisfies e.annotations (numericQuery k op n) ↔ ∃ x, k.Holds e x ∧ op.Holds x n.toNat := by
  have hwidth : n.toNat < 256 ^ k.width := by
    cases k <;> exact lt_of_lt_of_le n.toNat_lt (by norm_num [NumericKey.width])
  have hlen : ∀ x y, (be k.width x).length = (be k.width y).length := fun x y => by
    rw [be_length, be_length]
  have htier : ∀ range : Bytes → Prop, CarriesTier2 e.annotations k.key.pairKeyBytes range ↔
      ∃ x, k.Holds e x ∧ range (be k.width x) := by
    intro range
    rw [CarriesTier2, NumericKey.annotation_iff huniform hname he]
    simp only [true_and]
  have hvalue : ∀ x, k.Holds e x → ofBe (be k.width x) = x := fun x hx => ofBe_be hx.lt
  have hliteral : ofBe (be k.width n.toNat) = n.toNat := ofBe_be hwidth
  cases op with
  | eq =>
    show Carries e.annotations k.key.pairKeyBytes (be k.width n.toNat) ↔ _
    rw [Carries, NumericKey.annotation_iff huniform hname he]
    refine exists_congr fun x => and_congr_right fun hx => ⟨be_inj hx.lt hwidth, ?_⟩
    rintro rfl
    rfl
  | gt =>
    refine (htier _).trans (exists_congr fun x => and_congr_right fun hx => ?_)
    rw [lt_iff_ofBe_lt (hlen _ _), hvalue x hx, hliteral]
    rfl
  | gte =>
    refine (htier _).trans (exists_congr fun x => and_congr_right fun hx => ?_)
    rw [le_iff_ofBe_le (hlen _ _), hvalue x hx, hliteral]
    rfl
  | lt =>
    refine (htier _).trans (exists_congr fun x => and_congr_right fun hx => ?_)
    rw [lt_iff_ofBe_lt (hlen _ _), hvalue x hx, hliteral]
    rfl
  | lte =>
    refine (htier _).trans (exists_congr fun x => and_congr_right fun hx => ?_)
    rw [le_iff_ofBe_le (hlen _ _), hvalue x hx, hliteral]
    rfl

/-- **Numeric queries are numeric.** Where the indexes are coherent, `key op n` returns exactly the
    live IDs whose entity holds a number `x` under the key with `x op n`. -/
theorem numericQuery_iff [UnicodeTables] (hC : Coherent P K w live)
    (hname : ∀ s, k = .user s → tokenize s = .ok [.ident s]) (huniform : k.Uniform live)
    (hwithin : (numericQuery k op n).Within P K) :
    parse (numericText k op n) = .ok (numericQuery k op n) ∧
      ∃ b, (numericQuery k op n).evaluate w = .ok b ∧
        ∀ i, i ∈ b ↔ ∃ e, live i = some e ∧ ∃ x, k.Holds e x ∧ op.Holds x n.toNat := by
  have htokens : tokenize (numericText k op n) = .ok (numericTokens k op n) :=
    tokenize_numericText (NumericKey.spells hname)
  obtain ⟨b, hb, hmem⟩ := hC.returns_eval _ hwithin
  refine ⟨by rw [parse, htokens]; exact parseTopLevel_numeric, b, hb, fun i => ?_⟩
  rw [hmem]
  refine exists_congr fun e => and_congr_right fun he => ?_
  exact satisfies_numericQuery huniform (fun s hs => tokenize_eq_ident_iff.mp (hname s hs)) he

end Evaluation

/-- The attributes of both entities are numbers. -/
theorem uniform_openLive : NumericKey.Uniform DevChain.openLive (.user "score".toList) := by
  have hconvert : ∀ n ∈ [42, 7], convertAttribute ⟨nameWord (ascii "score"), attrUint,
      DevChain.oneWord n⟩ = .ok ⟨ascii "score", attrUint, be 32 n⟩ := by decide +kernel
  intro i e he a ha hkey
  rcases DevChain.openLive_eq_some.mp he with ⟨-, rfl⟩ | ⟨-, rfl⟩
  · rw [List.mem_singleton.mp ha]
    exact ⟨_, rfl, hconvert 42 List.mem_cons_self⟩
  · rw [List.mem_singleton.mp ha]
    exact ⟨_, rfl, hconvert 7 (by simp)⟩

/-- The entities with scores of 42 and 7, asked for with `score > 7`. -/
theorem numericQuery_iff_score :
    @parse latinTables (numericText (.user "score".toList) .gt 7) =
        .ok (numericQuery (.user "score".toList) .gt 7) ∧
      ∃ b, (numericQuery (.user "score".toList) .gt 7).evaluate
          (Chain.run DevChain.openRun).world = .ok b ∧
        ∀ i, i ∈ b ↔ ∃ e, DevChain.openLive i = some e ∧
          ∃ x, (NumericKey.user "score".toList).Holds e x ∧ NumericOp.gt.Holds x (7 : UInt64).toNat := by
  have hlex : @tokenize latinTables "score".toList = .ok [.ident "score".toList] := by decide +kernel
  have hbytes : utf8Bytes "score".toList = ascii "score" := by decide +kernel
  have hwithin : (numericQuery (.user "score".toList) .gt 7).Within
      {p | p ∈ DevChain.probedPairs} {k | k ∈ DevChain.probedKeys} := by
    show utf8Bytes "score".toList ∈ DevChain.probedKeys
    rw [hbytes]
    simp [DevChain.probedKeys]
  exact @numericQuery_iff _ _ _ _ _ _ _ _ _ latinTables DevChain.coherent_openRun
    (fun s hs => NumericKey.user.inj hs ▸ hlex) uniform_openLive hwithin

end Arkiv
