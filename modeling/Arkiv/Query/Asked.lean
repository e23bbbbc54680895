import Mathlib
import Arkiv.Model.Requests
import Arkiv.Query.Answers
import Arkiv.Query.Texts
import Arkiv.Registry.Acceptance
import Arkiv.Registry.Canonical
import Arkiv.Registry.Provenance

/-!
# Texts and their answers

A client sends the text of a query, walks the pages and reads the fields it asked
for. What it is told of an entity is again a text of the query language: a key
and a literal. Asked for, it finds the entity.

## Main definitions

- `Rpc.Asks` — a client that follows the cursors of a text
- `textPages_run` — what a text is answered after a run
- `Says` — what an answer says of its entity, as a key and a literal
- `asked_run` — what an answer says finds its entity
-/

namespace Arkiv

open ByteString

namespace Rpc

section Requests

variable [Keccak] [RoaringFormat] [UnicodeTables] [SummaryCrates] {provider : StateProvider}
  {text : List Char} {atBlock : Option BlockNumberOrTag} {includeData : Option IncludeData}
  {w : World} {n : UInt64} {q : Query}

/-- A client that sends one text, starts with a cursor and stops at the first response without one.
    Each request asks for its own page size. -/
inductive Asks (provider : StateProvider) (text : List Char) (atBlock : Option BlockNumberOrTag)
    (includeData : Option IncludeData) :
    List (Option UInt64) → Option (List Char) → List QueryResponse → Prop where
  | last {size : Option UInt64} {cursor : Option (List Char)} {r : QueryResponse}
      (hrun : runQuery provider text ⟨atBlock, size, cursor, includeData⟩ = .ok r)
      (hend : r.cursor = none) : Asks provider text atBlock includeData [size] cursor [r]
  | next {size : Option UInt64} {cursor : Option (List Char)} {r : QueryResponse}
      {sizes : List (Option UInt64)} {c : List Char} {rs : List QueryResponse}
      (hrun : runQuery provider text ⟨atBlock, size, cursor, includeData⟩ = .ok r)
      (hnext : r.cursor = some c) (hrest : Asks provider text atBlock includeData sizes (some c) rs) :
      Asks provider text atBlock includeData (size :: sizes) cursor (r :: rs)

omit [SummaryCrates] in
/-- A text that parses is executed as its query. -/
theorem execute_of_parse (hparse : parse text = .ok q) (params : PageParams) :
    execute w text params = liftRequest (q.execute w params) := by
  unfold execute
  split
  · next hzero =>
    rw [Query.execute, if_pos hzero]
    rfl
  · rw [hparse]

/-- The fields of the records, in order. -/
def answers (hits : List (UInt64 × EntityRlp)) (inc : ResolvedIncludeData) :
    Option (List EntityData) :=
  (hits.map (·.2)).mapM (entityDataFrom · inc)

/-- A request answers with the hits of its query. -/
theorem runQuery_of_parse (hsnap : snapshotFor provider atBlock = .ok (w, n))
    (hparse : parse text = .ok q) {size : Option UInt64} {cursor : Option (List Char)}
    {r : Arkiv.QueryResponse} (hrun : Arkiv.runQuery w q ⟨size, cursor⟩ = .ok r)
    {data : List EntityData}
    (hdata : answers r.hits (.fromOptions includeData) = some data) :
    runQuery provider text ⟨atBlock, size, cursor, includeData⟩ = .ok ⟨data, n, r.cursor⟩ := by
  unfold Arkiv.runQuery at hrun
  obtain ⟨c, hcursor, hrun⟩ := Runs.ok_bind.mp hrun
  obtain ⟨page, hpage, hrun⟩ := Runs.ok_bind.mp hrun
  obtain rfl := Except.ok.inj hrun
  have hexecute : execute w text ⟨Arkiv.QueryOptions.pageSize ⟨size, cursor⟩, c⟩ = .ok page := by
    rw [execute_of_parse hparse, hpage]
    rfl
  have hlift : liftRequest (parseCursor cursor) = .ok c := by
    rw [hcursor]
    rfl
  unfold runQuery
  refine Runs.ok_bind.mpr ⟨(w, n), hsnap, Runs.ok_bind.mpr ⟨c, hlift, ?_⟩⟩
  refine Runs.ok_bind.mpr ⟨page, hexecute, ?_⟩
  have hentries : page.entries.mapM (entityDataFrom · (.fromOptions includeData)) = some data := hdata
  dsimp only
  rw [hentries]
  rfl

omit [Keccak] [RoaringFormat] [UnicodeTables] in
theorem answers_append {hits hits' : List (UInt64 × EntityRlp)} {inc : ResolvedIncludeData}
    {data data' : List EntityData} (h : answers hits inc = some data)
    (h' : answers hits' inc = some data') : answers (hits ++ hits') inc = some (data ++ data') := by
  unfold answers at *
  rw [List.map_append, List.mapM_append, h, h']
  rfl

omit [Keccak] [RoaringFormat] [UnicodeTables] in
theorem exists_answers {hits : List (UInt64 × EntityRlp)} {inc : ResolvedIncludeData}
    (h : ∀ x ∈ hits, ∃ d, entityDataFrom x.2 inc = some d) : ∃ data, answers hits inc = some data := by
  induction hits with
  | nil => exact ⟨[], rfl⟩
  | cons x hits ih =>
    obtain ⟨hx, hhits⟩ := List.forall_mem_cons.mp h
    obtain ⟨d, hd⟩ := hx
    obtain ⟨data, hdata⟩ := ih hhits
    have hone : answers [x] inc = some [d] := by
      unfold answers
      rw [List.map_singleton, List.mapM_cons, hd]
      rfl
    exact ⟨d :: data, answers_append hone hdata⟩

omit [Keccak] [RoaringFormat] [UnicodeTables] in
theorem mem_answers {hits : List (UInt64 × EntityRlp)} {inc : ResolvedIncludeData}
    {data : List EntityData} (h : answers hits inc = some data) {d : EntityData} :
    d ∈ data ↔ ∃ x ∈ hits, entityDataFrom x.2 inc = some d := by
  induction hits generalizing data with
  | nil =>
    obtain rfl := Option.some.inj h
    simp
  | cons x hits ih =>
    unfold answers at h
    rw [List.map_cons, List.mapM_cons] at h
    obtain ⟨d₀, hd₀, h⟩ := Option.bind_eq_some_iff.mp h
    obtain ⟨rest, hrest, h⟩ := Option.bind_eq_some_iff.mp h
    obtain rfl := Option.some.inj h
    rw [List.mem_cons, ih hrest, List.exists_mem_cons_iff, hd₀, Option.some_inj, eq_comm]

/-- **The walk of a query is the walk of its text.** -/
theorem exists_asks (hsnap : snapshotFor provider atBlock = .ok (w, n))
    (hparse : parse text = .ok q) (includeData : Option IncludeData)
    {sizes : List (Option UInt64)} {cursor : Option (List Char)} {rs : List Arkiv.QueryResponse}
    (h : Follows q (sizes.map fun size => (w, size)) cursor rs)
    (hdata : ∀ x ∈ returnedHits rs, ∃ d, entityDataFrom x.2 (.fromOptions includeData) = some d) :
    ∃ responses, Asks provider text atBlock includeData sizes cursor responses ∧
      (∀ r ∈ responses, r.blockNumber = n) ∧
      answers (returnedHits rs) (.fromOptions includeData) =
        some (responses.flatMap (·.data)) := by
  -- By induction on the pages: the answers of a page go in front of those of the pages after it.
  induction sizes generalizing cursor rs with
  | nil => cases h
  | cons size sizes ih =>
    obtain ⟨r, hrun, hcase⟩ := follows_cons_iff.mp h
    rcases hcase with ⟨hend, hsizes, rfl⟩ | ⟨c, rest, hnext, rfl, hrest⟩
    · obtain rfl := List.map_eq_nil_iff.mp hsizes
      rw [returnedHits, List.flatMap_singleton] at hdata ⊢
      obtain ⟨data, hanswers⟩ := exists_answers hdata
      refine ⟨[⟨data, n, r.cursor⟩], .last (runQuery_of_parse hsnap hparse hrun hanswers) hend,
        ?_, ?_⟩
      · intro r' hr'
        rw [List.mem_singleton.mp hr']
      · rw [hanswers, List.flatMap_singleton]
    · rw [returnedHits, List.flatMap_cons] at hdata ⊢
      obtain ⟨data, hanswers⟩ := exists_answers fun x hx => hdata x (List.mem_append_left _ hx)
      obtain ⟨responses, hasks, hblock, hresponses⟩ :=
        ih hrest fun x hx => hdata x (List.mem_append_right _ hx)
      refine ⟨⟨data, n, r.cursor⟩ :: responses,
        .next (runQuery_of_parse hsnap hparse hrun hanswers) hnext hasks, ?_, ?_⟩
      · exact List.forall_mem_cons.mpr ⟨rfl, hblock⟩
      · rw [List.flatMap_cons]
        exact answers_append hanswers hresponses

end Requests

end Rpc

section Records

variable {e : EntityRlp} {d : EntityData} {inc : ResolvedIncludeData}

/-- Records that are answered without loss: ASCII for a content type, and attributes that were
    accepted. -/
structure EntityRlp.Readable (e : EntityRlp) : Prop where
  contentType : ∀ b ∈ e.contentType, b.toNat ≤ 127
  attributes : ∀ x ∈ e.attributes, ∃ a, Keeps a x

/-- Content types of accepted references are printable. -/
theorem contentType_ascii [ReceiptCrates] [Keccak] {payload : Bytes} {chainId : UInt64}
    {auth : PayloadReferenceAuth} (h : validatePayloadReference payload chainId = .ok auth) :
    ∀ b ∈ auth.contentType, b.toNat ≤ 127 := by
  unfold validatePayloadReference at h
  cases hparse : ReceiptCrates.fromSlice payload with
  | none => simp [hparse] at h
  | some reference =>
    simp only [hparse] at h
    obtain ⟨_, -, h⟩ := Runs.ok_bind.mp h
    obtain ⟨_, -, h⟩ := Runs.ok_bind.mp h
    obtain ⟨_, -, h⟩ := Runs.ok_bind.mp h
    obtain ⟨_, -, h⟩ := Runs.ok_bind.mp h
    obtain ⟨_, -, h⟩ := Runs.ok_bind.mp h
    obtain ⟨_, htype, h⟩ := Runs.ok_bind.mp h
    obtain ⟨_, -, h⟩ := Runs.ok_bind.mp h
    obtain ⟨_, -, h⟩ := Runs.ok_bind.mp h
    obtain ⟨_, -, h⟩ := Runs.ok_bind.mp h
    obtain ⟨nonce, -, h⟩ := Runs.ok_bind.mp h
    obtain ⟨_, -, h⟩ := Runs.ok_bind.mp h
    obtain ⟨provider, -, h⟩ := Runs.ok_bind.mp h
    obtain rfl := Except.ok.inj h
    intro b hb
    cases hcontent : reference.contentType with
    | none => simp [hcontent] at hb
    | some value =>
      rw [hcontent] at htype hb
      have hall := (Bool.and_eq_true_iff.mp (ensure_ok.mp htype)).2
      obtain ⟨-, hle⟩ := Bool.and_eq_true_iff.mp (List.all_eq_true.mp hall b hb)
      have hle := UInt8.le_iff_toNat_le.mp (of_decide_eq_true hle)
      exact hle.trans (by decide)

/-- Converted attributes were accepted one by one. -/
theorem exists_keeps {attrs : List AbiAttribute} {xs : List Attribute}
    (hnames : validateAttributeNames attrs = .ok ()) (hconv : convertAttributes attrs = .ok xs) :
    ∀ x ∈ xs, ∃ a, Keeps a x := by
  induction attrs generalizing xs with
  | nil =>
    obtain rfl := Except.ok.inj hconv
    simp
  | cons a attrs ih =>
    unfold validateAttributeNames at hnames
    obtain ⟨_, hname, hnames⟩ := Runs.ok_bind.mp (List.forM_cons.symm.trans hnames)
    simp only [convertAttributes, List.mapM_cons] at hconv
    obtain ⟨y, hy, hconv⟩ := Runs.ok_bind.mp hconv
    obtain ⟨ys, hys, hconv⟩ := Runs.ok_bind.mp hconv
    obtain rfl := Except.ok.inj hconv
    refine List.forall_mem_cons.mpr ⟨⟨a, ?_⟩, ih hnames hys⟩
    exact (accepted_iff.mpr ⟨hname, hy⟩).keeps

theorem Written.readable [Host] {x : OpTransition} {auth : PayloadReferenceAuth}
    (h : Written x e auth) : e.Readable :=
  ⟨h.contentType ▸ contentType_ascii h.reference, exists_keeps h.names h.attributes⟩

/-- Accepted attributes have their texts. -/
theorem Keeps.exists_data {a : AbiAttribute} {x : Attribute} (h : Keeps a x) :
    ∃ y, attributeData x = some y := by
  obtain ⟨s, hs⟩ := h.exists_value
  exact ⟨_, by rw [attributeData, hs]; rfl⟩

theorem exists_mapM_attributeData {xs : List Attribute} (h : ∀ x ∈ xs, ∃ a, Keeps a x) :
    ∃ ys, xs.mapM attributeData = some ys := by
  induction xs with
  | nil => exact ⟨[], rfl⟩
  | cons x xs ih =>
    obtain ⟨⟨a, ha⟩, hxs⟩ := List.forall_mem_cons.mp h
    obtain ⟨y, hy⟩ := ha.exists_data
    obtain ⟨ys, hys⟩ := ih hxs
    exact ⟨y :: ys, by rw [List.mapM_cons, hy, hys]; rfl⟩

theorem mem_of_mapM {α β : Type} {f : α → Option β} {xs : List α} {ys : List β}
    (h : xs.mapM f = some ys) {y : β} (hy : y ∈ ys) : ∃ x ∈ xs, f x = some y := by
  induction xs generalizing ys with
  | nil =>
    obtain rfl := Option.some.inj h
    cases hy
  | cons x xs ih =>
    rw [List.mapM_cons] at h
    obtain ⟨z, hz, h⟩ := Option.bind_eq_some_iff.mp h
    obtain ⟨zs, hzs, h⟩ := Option.bind_eq_some_iff.mp h
    obtain rfl := Option.some.inj h
    rcases List.mem_cons.mp hy with rfl | hy
    · exact ⟨x, List.mem_cons_self, hz⟩
    · obtain ⟨x', hx', hf⟩ := ih hzs hy
      exact ⟨x', List.mem_cons_of_mem _ hx', hf⟩

/-- **No answer panics.** -/
theorem EntityRlp.Readable.exists_data [SummaryCrates] (h : e.Readable) (inc : ResolvedIncludeData) :
    ∃ d, Rpc.entityDataFrom e inc = some d := by
  have hattributes : ∃ ys, Rpc.answeredAttributes e inc = some ys := by
    unfold Rpc.answeredAttributes
    split
    · exact exists_mapM_attributeData h.attributes
    · exact ⟨[], rfl⟩
  obtain ⟨ys, hys⟩ := hattributes
  exact ⟨_, by rw [Rpc.entityDataFrom, hys]; rfl⟩

theorem thenSome_eq_some {α : Type} {b : Bool} {x y : α} (h : thenSome b x = some y) : x = y := by
  unfold thenSome at h
  split at h
  · exact Option.some.inj h
  · cases h

/-- The fields of an answer are those of its record. -/
structure DataOf (e : EntityRlp) (d : EntityData) : Prop where
  key : d.key = e.key
  contentType : ∀ s, d.contentType = some s → s = fromUtf8Lossy e.contentType
  expiresAt : ∀ n, d.expiresAt = some n → n = e.expiresAt
  owner : ∀ a, d.owner = some a → a = e.owner
  creator : ∀ a, d.creator = some a → a = e.creator
  createdAtBlock : ∀ n, d.createdAtBlock = some n → n = e.createdAtBlock
  attributes : ∀ y ∈ d.attributes, ∃ x ∈ e.attributes, attributeData x = some y

theorem dataOf_entityDataFrom [SummaryCrates] (h : Rpc.entityDataFrom e inc = some d) :
    DataOf e d := by
  obtain ⟨ys, hys, rfl⟩ := Option.map_eq_some_iff.mp h
  unfold Rpc.answeredAttributes at hys
  refine ⟨rfl, fun s hs => (thenSome_eq_some hs).symm, fun n hn => (thenSome_eq_some hn).symm,
    fun a ha => (thenSome_eq_some ha).symm, fun a ha => (thenSome_eq_some ha).symm,
    fun n hn => (thenSome_eq_some hn).symm, fun y hy => ?_⟩
  split at hys
  · exact mem_of_mapM hys hy
  · obtain rfl := Option.some.inj hys
    cases hy

end Records

section Texts

variable [UnicodeTables] {e : EntityRlp} {d : EntityData}

/-- A text in quotes. -/
def quoted (s : List Char) : List Char := '"' :: (escaped s ++ ['"'])

/-- The literal of an attribute in an answer: texts are quoted. -/
def AttributeData.literal (y : AttributeData) : List Char :=
  if y.valueType = attrString then quoted y.value else y.value

/-- What an answer says of its entity, as a key and a literal of the query language. Of the
    attributes it says those whose names are identifiers and whose numbers are literals. -/
inductive Says (d : EntityData) : List Char → List Char → Prop where
  | key : Says d ('$' :: "key".toList) (hexPrefixed (b256Bytes d.key))
  | owner {a : Address} (h : d.owner = some a) :
      Says d ('$' :: "owner".toList) (hexPrefixed (addressBytes a))
  | creator {a : Address} (h : d.creator = some a) :
      Says d ('$' :: "creator".toList) (hexPrefixed (addressBytes a))
  | expiration {n : UInt64} (h : d.expiresAt = some n) :
      Says d ('$' :: "expiration".toList) (decimalDigits n.toNat)
  | createdAtBlock {n : UInt64} (h : d.createdAtBlock = some n) :
      Says d ('$' :: "createdAtBlock".toList) (decimalDigits n.toNat)
  | contentType {s : List Char} (h : d.contentType = some s) :
      Says d ('$' :: "contentType".toList) (quoted s)
  | userAttribute {y : AttributeData} (h : y ∈ d.attributes) (hname : IsName y.key)
      (hlt : y.valueType = attrUint → decimalValue y.value < 2 ^ 64) : Says d y.key y.literal

/-- An equality with a key and a literal in any of their spellings. -/
theorem parse_equality {k t : Token} {key : AnnotKey} {v : AnnotVal} {name literal : List Char}
    (hk : Names k key) (hname : Spells k name) (hv : Value key t v) (ht : Spells t literal) :
    parse (equalityText name literal) = .ok (.eq key v) := by
  have hspace : ∀ c ∈ [' '], isWhitespace c = true := List.all_eq_true.mp (by decide)
  have hsep : ∀ rest, Separated (' ' :: rest) := fun rest c hc => by
    obtain rfl := Option.some.inj hc
    decide
  have hlast : Writes [t] ([' '] ++ (literal ++ [])) :=
    .cons hspace ht (.nil (by simp)) (by simp [Separated])
  have hop : Writes [.eq, t] ([' '] ++ (['='] ++ ([' '] ++ (literal ++ [])))) :=
    .cons hspace (.symbol rfl) hlast (hsep _)
  have hall : Writes [k, .eq, t] (equalityText name literal) := by
    have hcons := @Writes.cons _ _ _ [] _ _ (by simp) hname hop (hsep _)
    simpa [equalityText] using hcons
  have htokens : tokenize (equalityText name literal) = .ok [k, .eq, t] :=
    Lexer.tokens_of_writes hall (Nat.lt_succ_self _)
  rw [parse, htokens]
  exact (Predicate.compare hk .eq hv).topLevel.parse

theorem spells_address (a : Address) : Spells (.address a) (hexPrefixed (addressBytes a)) :=
  .address (.inl rfl) (hexOf_digits _)

theorem spells_entityKey (b : B256) : Spells (.entityKey b) (hexPrefixed (b256Bytes b)) :=
  .entityKey (.inl rfl) (hexOf_digits _)

theorem spells_quoted (s : List Char) : Spells (.stringLit s) (quoted s) := .stringLit s

/-- A word below `2 ^ 64` is the literal of its number. -/
theorem exists_number {k v : Bytes} (hlength : v.length = 32) (hlt : ofBe v < 2 ^ 64) :
    ∃ t, Value (.user k) t v ∧ Spells t (decimalDigits (ofBe v)) := by
  have hn : (UInt64.ofNat (ofBe v)).toNat = ofBe v := UInt64.toNat_ofNat_of_lt' hlt
  have hvalue : List.replicate 24 0 ++ u64Bytes (UInt64.ofNat (ofBe v)) = v := by
    have hlen : (List.replicate 24 0 ++ u64Bytes (UInt64.ofNat (ofBe v))).length = 32 := by
      rw [List.length_append, List.length_replicate, u64Bytes, be_length]
    rw [← be_ofBe hlen, ofBe_replicate_append, u64Bytes, hn,
      ofBe_be (lt_of_lt_of_eq hlt (by norm_num)), be_ofBe hlength]
  have huser := Encodes.userNumber k (UInt64.ofNat (ofBe v))
  have hspells := spells_decimalDigits (UInt64.ofNat (ofBe v))
  rw [hvalue] at huser
  rw [hn] at hspells
  exact ⟨_, ⟨_, .number _, huser⟩, hspells⟩

omit [UnicodeTables] in
/-- The number in the text of a word. -/
theorem formatAttributeValue_uint {v : Bytes} (hlength : v.length = 32) :
    formatAttributeValue attrUint v = some (decimalDigits (ofBe v)) := by
  have hbound := ofBe_lt v
  rw [hlength] at hbound
  rw [formatAttributeValue, if_pos rfl, u256FromBeSlice_word hlength, Option.map_some,
    BitVec.toNat_ofNat, Nat.mod_eq_of_lt (lt_of_lt_of_eq hbound (by norm_num))]

/-- **A value is written as it is answered**: the literal of an attribute posts its stored value. -/
theorem Keeps.exists_literal {a : AbiAttribute} {x : Attribute} {y : AttributeData}
    (h : Keeps a x) (hy : attributeData x = some y)
    (hlt : y.valueType = attrUint → decimalValue y.value < 2 ^ 64) :
    ∃ t, Value (.user x.key) t x.value ∧ Spells t y.literal := by
  obtain ⟨s, hs, heq⟩ := Option.map_eq_some_iff.mp hy
  have htype : y.valueType = x.valueType := by rw [← heq]
  have hvalue : y.value = s := by rw [← heq]
  unfold AttributeData.literal
  rw [htype, hvalue] at hlt ⊢
  rcases h.kind with ⟨hstring, -, u, hu, htext⟩ | ⟨huint | hkey, hlength⟩
  · -- a text
    rw [hstring] at hs ⊢
    obtain rfl := Option.some.inj hs
    rw [if_pos rfl]
    have huser := Encodes.userString x.key u
    rw [hu, htext] at huser
    exact ⟨_, ⟨_, .string _, huser⟩, spells_quoted _⟩
  · -- a number
    rw [huint, formatAttributeValue_uint hlength] at hs
    obtain rfl := Option.some.inj hs
    rw [decimalValue_decimalDigits] at hlt
    rw [huint, if_neg (by decide)]
    exact exists_number hlength (hlt huint)
  · -- an entity key
    rw [hkey] at hs ⊢
    obtain rfl := Option.some.inj hs
    obtain ⟨b, hb⟩ := exists_b256Bytes hlength
    rw [if_neg (by decide), ← hb]
    exact ⟨_, ⟨_, .entityKey b, .userEntityKey x.key b⟩, spells_entityKey b⟩

omit [UnicodeTables] in
theorem carries_attribute {x : Attribute} (hx : x ∈ e.attributes) :
    Carries e.annotations x.key x.value :=
  ⟨_, List.mem_append_right _ (List.mem_map_of_mem hx), rfl, rfl⟩

omit [UnicodeTables] in
theorem carries_builtIn {a : Annotation} (ha : a ∈ builtInAnnotations e.creator e.owner e.key
    e.createdAtBlock e.expiresAt e.contentType) : Carries e.annotations a.key a.value :=
  ⟨a, List.mem_append_left _ ha, rfl, rfl⟩

/-- **What an answer says is a query**, and its entity satisfies it. -/
theorem Says.exists_parse (hd : DataOf e d) (he : e.Readable) {name literal : List Char}
    (h : Says d name literal) : ∃ key v, parse (equalityText name literal) = .ok (.eq key v) ∧
      Carries e.annotations key.pairKeyBytes v := by
  cases h with
  | key =>
    refine ⟨_, _, parse_equality .key (.symbol rfl) ⟨_, .entityKey _, .key _⟩
      (spells_entityKey d.key), ?_⟩
    rw [hd.key]
    exact carries_builtIn (a := ⟨annotKey, b256Bytes e.key, false⟩) (by simp [builtInAnnotations])
  | owner h =>
    refine ⟨_, _, parse_equality .owner (.symbol rfl) ⟨_, .address _, .owner _⟩
      (spells_address _), ?_⟩
    rw [hd.owner _ h]
    exact carries_builtIn (a := ⟨annotOwner, addressBytes e.owner, false⟩)
      (by simp [builtInAnnotations])
  | creator h =>
    refine ⟨_, _, parse_equality .creator (.symbol rfl) ⟨_, .address _, .creator _⟩
      (spells_address _), ?_⟩
    rw [hd.creator _ h]
    exact carries_builtIn (a := ⟨annotCreator, addressBytes e.creator, false⟩)
      (by simp [builtInAnnotations])
  | expiration h =>
    refine ⟨_, _, parse_equality .expiration (.symbol rfl) ⟨_, .number _, .expiration _⟩
      (spells_decimalDigits _), ?_⟩
    rw [hd.expiresAt _ h]
    exact carries_builtIn (a := ⟨annotExpiration, u64Bytes e.expiresAt, true⟩)
      (by simp [builtInAnnotations])
  | createdAtBlock h =>
    refine ⟨_, _, parse_equality .createdAtBlock (.symbol rfl) ⟨_, .number _, .createdAtBlock _⟩
      (spells_decimalDigits _), ?_⟩
    rw [hd.createdAtBlock _ h]
    exact carries_builtIn (a := ⟨annotCreatedAtBlock, u64Bytes e.createdAtBlock, true⟩)
      (by simp [builtInAnnotations])
  | contentType h =>
    refine ⟨_, _, parse_equality .contentType (.symbol rfl) ⟨_, .string _, .contentType _⟩
      (spells_quoted _), ?_⟩
    rw [hd.contentType _ h, utf8Bytes_fromUtf8Lossy (invalidUtf8At_ascii he.contentType 0)]
    exact carries_builtIn (a := ⟨annotContentType, e.contentType, true⟩)
      (by simp [builtInAnnotations])
  | @userAttribute y h hname hlt =>
    obtain ⟨x, hx, hy⟩ := hd.attributes y h
    obtain ⟨a, ha⟩ := he.attributes x hx
    obtain ⟨t, ht, hspells⟩ := ha.exists_literal hy hlt
    obtain ⟨s, -, heq⟩ := Option.map_eq_some_iff.mp hy
    have hkey : utf8Bytes y.key = x.key := by
      rw [← heq]
      exact ha.key_text
    have hnames := Names.user y.key
    rw [hkey] at hnames
    exact ⟨_, _, parse_equality hnames (.ident hname) ht hspells, carries_attribute hx⟩

end Texts

section Runs

variable [Host] [UnicodeTables] [SummaryCrates] {S : Scope} {chainId : UInt64} {Q L : Set Bytes}
  {w : World} {h : History} {provider : StateProvider} {atBlock : Option BlockNumberOrTag}
  {n : UInt64} {text : List Char} {q : Query} {steps : List Chain.Step}

/-- The records that entities have in answers, newest first, with their IDs. -/
structure Found (S : Scope) (chainId : UInt64) (w : World) (q : Query)
    (found : List (UInt64 × EntityRlp)) : Prop where
  falling : (found.map (·.1)).Pairwise (· > ·)
  mem_iff : ∀ i e, (i, e) ∈ found ↔ ∃ a, a ≠ 0 ∧ Live S chainId w a e ∧ readEntityId w a = i ∧
    Satisfies e.annotations q

/-- What a text is answered on a state whose index follows the records. -/
theorem IndexHolds.textPages (hI : IndexHolds S chainId Q L w) (hL : L ⊆ Q)
    (hN : Numbered S chainId w h) (hR : Registered S chainId w h) (hall : annotAll ∈ Q)
    (hcovers : S.Covers annotAll []) (hreadable : ∀ a e, Live S chainId w a e → e.Readable)
    (hsnap : Rpc.snapshotFor provider atBlock = .ok (w, n)) (hparse : parse text = .ok q)
    (hq : q.Within (pairsUnder S Q) (keysUnder S L)) (includeData : Option IncludeData)
    (sizes : ℕ → Option UInt64) :
    ∃ m responses found,
      Rpc.Asks provider text atBlock includeData ((List.range m).map sizes) none responses ∧
      (∀ r ∈ responses, r.blockNumber = n) ∧ Found S chainId w q found ∧
      Rpc.answers found (.fromOptions includeData) = some (responses.flatMap (·.data)) := by
  obtain ⟨m, rs, hfollows, hfalling, hmem⟩ := hI.pages hL hN hR hall hcovers q hq sizes
  have hvisits : ((List.range m).map fun k => (w, sizes k)) =
      ((List.range m).map sizes).map fun size => (w, size) := by
    rw [List.map_map]
    rfl
  rw [hvisits] at hfollows
  obtain ⟨responses, hasks, hblock, hanswers⟩ :=
    Rpc.exists_asks hsnap hparse includeData hfollows fun x hx => by
      obtain ⟨a, -, ha, -⟩ := (hmem x.1 x.2).mp hx
      exact (hreadable a x.2 ha).exists_data _
  exact ⟨m, responses, returnedHits rs, hasks, hblock, ⟨hfalling, hmem⟩, hanswers⟩

omit [UnicodeTables] [SummaryCrates] in
/-- The live records after a run are answered without loss. -/
theorem readableRecords_run (hrun : Chain.AllowedRun chainId S.foreign steps)
    (hsound : SoundHistory S (Chain.run steps).history) :
    ∀ a e, Live S chainId (Chain.run steps).world a e → e.Readable := by
  intro a e he
  obtain ⟨x, auth, -, hwritten⟩ := written_run hrun hsound a e he
  exact hwritten.readable

/-- **Texts are answered from the live entities**: after every run with fewer than `2 ^ 64` creates
    in which only entities look like entities, values keep their tiers and calls keep the slots, a
    client that sends a text of the language and follows the cursors, whatever sizes and fields it
    asks for, comes to the last page without an error, and the answers are the records of the live
    entities that satisfy the query of the text, each once, the newest first, with the fields that
    the client named. -/
theorem textPages_run (hrun : Chain.AllowedRun chainId S.foreign steps)
    (hsound : SoundHistory S (Chain.run steps).history)
    (honly : OnlyEntitiesIn S chainId (Chain.run steps).history)
    (hlt : creates (Chain.run steps).history < 2 ^ 64) (hL : L ⊆ Q)
    (hnames : NamesKeysIn S chainId Q (Chain.run steps).history)
    (htiers : OneTierIn S chainId Q (Chain.run steps).history)
    (hslots : KeepsSlotsIn L (Chain.run steps).history) (hall : annotAll ∈ Q)
    (hcovers : S.Covers annotAll [])
    (hsnap : Rpc.snapshotFor provider atBlock = .ok ((Chain.run steps).world, n))
    (hparse : parse text = .ok q) (hq : q.Within (pairsUnder S Q) (keysUnder S L)) :
    ∀ (includeData : Option IncludeData) (sizes : ℕ → Option UInt64), ∃ m responses found,
      Rpc.Asks provider text atBlock includeData ((List.range m).map sizes) none responses ∧
      (∀ r ∈ responses, r.blockNumber = n) ∧ Found S chainId (Chain.run steps).world q found ∧
      Rpc.answers found (.fromOptions includeData) = some (responses.flatMap (·.data)) := by
  have hI := indexHolds_run hrun hsound honly hlt hL hnames htiers hslots
  have hN := (numbered_run hrun hsound honly hlt).1
  have hR := (registered_run hrun hsound).1
  intro includeData sizes
  exact hI.textPages hL hN hR hall hcovers (readableRecords_run hrun hsound) hsnap hparse hq
    includeData sizes

/-- **What an answer says finds its entity**: after every run with fewer than `2 ^ 64` creates in
    which only entities look like entities and values keep their tiers, every field of the answer
    for a live entity, written back as an equality of the query language, is a text that parses,
    and whatever pages are asked for, its answers hold the answer for that entity and only answers
    for live entities with the same posting. -/
theorem asked_run (hrun : Chain.AllowedRun chainId S.foreign steps)
    (hsound : SoundHistory S (Chain.run steps).history)
    (honly : OnlyEntitiesIn S chainId (Chain.run steps).history)
    (hlt : creates (Chain.run steps).history < 2 ^ 64)
    (hnames : NamesKeysIn S chainId Q (Chain.run steps).history)
    (htiers : OneTierIn S chainId Q (Chain.run steps).history) (hall : annotAll ∈ Q)
    (hcovers : S.Covers annotAll [])
    (hsnap : Rpc.snapshotFor provider atBlock = .ok ((Chain.run steps).world, n)) {a : Address}
    {e : EntityRlp} (hzero : a ≠ 0) (he : Live S chainId (Chain.run steps).world a e)
    {includeData : Option IncludeData} {d : EntityData}
    (hd : Rpc.entityDataFrom e (.fromOptions includeData) = some d) {name literal : List Char}
    (htext : Says d name literal) :
    ∃ key v, parse (equalityText name literal) = .ok (.eq key v) ∧
      (key.pairKeyBytes ∈ Q → ∀ sizes : ℕ → Option UInt64, ∃ m responses,
        Rpc.Asks provider (equalityText name literal) atBlock includeData
          ((List.range m).map sizes) none responses ∧
        d ∈ responses.flatMap (·.data) ∧
        ∀ d' ∈ responses.flatMap (·.data), ∃ b f, Live S chainId (Chain.run steps).world b f ∧
          Carries f.annotations key.pairKeyBytes v ∧
          Rpc.entityDataFrom f (.fromOptions includeData) = some d') := by
  have hI := indexHolds_run hrun hsound honly hlt (Set.empty_subset Q) hnames htiers
    fun _ _ _ _ hc => hc.elim
  have hN := (numbered_run hrun hsound honly hlt).1
  have hR := (registered_run hrun hsound).1
  have hreadable := readableRecords_run hrun hsound
  obtain ⟨key, v, hparse, hcarries⟩ :=
    htext.exists_parse (dataOf_entityDataFrom hd) (hreadable a e he)
  refine ⟨key, v, hparse, fun hkey sizes => ?_⟩
  obtain ⟨b, hb, hbkey, hbvalue⟩ := hcarries
  have hcov := (hR.recorded a e he).covers b hb
  rw [hbkey, hbvalue] at hcov
  obtain ⟨m, responses, found, hasks, -, hfound, hanswers⟩ := hI.textPages (Set.empty_subset Q) hN hR
    hall hcovers hreadable hsnap hparse ⟨hkey, hcov⟩ includeData sizes
  refine ⟨m, responses, hasks, ?_, fun d' hd' => ?_⟩
  · refine (Rpc.mem_answers hanswers).mpr
      ⟨(readEntityId (Chain.run steps).world a, e), ?_, hd⟩
    exact (hfound.mem_iff _ e).mpr ⟨a, hzero, he, rfl, b, hb, hbkey, hbvalue⟩
  -- What else is answered satisfies the same equality.
  · obtain ⟨x, hx, hx'⟩ := (Rpc.mem_answers hanswers).mp hd'
    obtain ⟨c, -, hc, -, hsat⟩ := (hfound.mem_iff x.1 x.2).mp hx
    exact ⟨c, x.2, hc, hsat, hx'⟩

end Runs

/-- The state provider of a node at the head of the development chain. -/
def DevChain.provider (w : World) : StateProvider := ⟨some 5, some w, fun _ => none⟩

/-- The attributes and the owner, nothing else. -/
def DevChain.namedFields : IncludeData :=
  { key := none, payloadReference := none, payload := none, attributes := some true,
    contentType := none, expiration := none, owner := some true, creator := none,
    createdAtBlock := none, lastModifiedAtBlock := none, transactionIndexInBlock := none,
    operationIndexInTransaction := none }

/-- The answer for the score of the first entity. -/
def DevChain.scoreData : AttributeData := ⟨"score".toList, attrUint, decimalDigits 42⟩

/-- What the development caller owns and what expires after block 10. -/
def DevChain.ownedLateText : List Char :=
  "$owner = 0x00000000000000000000000000000000000000aa && $expiration > 10".toList

/-- The node's reading of stored references is not asked for here. -/
@[reducible] def DevChain.noSummaries : SummaryCrates := ⟨fun _ => none⟩

theorem textPages_openRun : ∃ m responses found,
    @Rpc.Asks _ _ latinTables DevChain.noSummaries
      (DevChain.provider (Chain.run DevChain.openRun).world) DevChain.ownedLateText none
      (some DevChain.namedFields) ((List.range m).map fun _ => some 1) none responses ∧
    (∀ r ∈ responses, r.blockNumber = 5) ∧
    Found DevChain.tradeScope devChainId (Chain.run DevChain.openRun).world ownedLateQuery found ∧
    @Rpc.answers DevChain.noSummaries found (.fromOptions (some DevChain.namedFields)) =
      some (responses.flatMap (·.data)) := by
  let _ := latinTables
  let _ := DevChain.noSummaries
  have hparse : parse DevChain.ownedLateText = .ok ownedLateQuery := by decide +kernel
  exact textPages_run DevChain.facts_openRun.allowed DevChain.facts_openRun.sound
    DevChain.facts_openRun.only DevChain.facts_openRun.creates (subset_refl Set.univ)
    (namesKeysIn_of_facts Set.univ DevChain.facts_openRun)
    (oneTierIn_of_facts Set.univ DevChain.facts_openRun) (keepsSlotsIn_openRun Set.univ) trivial
    covers_all_tradeScope rfl hparse within_ownedLateQuery (some DevChain.namedFields)
    fun _ => some 1

/-- The score in the answer for the first entity. -/
theorem entityDataFrom_firstEntity :
    ∃ d, @Rpc.entityDataFrom DevChain.noSummaries DevChain.firstEntity
        (.fromOptions (some DevChain.namedFields)) = some d ∧ DevChain.scoreData ∈ d.attributes := by
  have hscore : attributeData ⟨ascii "score", attrUint, be 32 42⟩ = some DevChain.scoreData := by
    rw [attributeData, formatAttributeValue_uint (be_length 32 42)]
    have hkey : fromUtf8Lossy (ascii "score") = "score".toList := by decide +kernel
    have hvalue : ofBe (be 32 42) = 42 := by decide +kernel
    rw [hkey, hvalue]
    rfl
  have hattributes : DevChain.firstEntity.attributes.mapM attributeData =
      some [DevChain.scoreData] := by
    show [(⟨ascii "score", attrUint, be 32 42⟩ : Attribute)].mapM attributeData = _
    rw [List.mapM_cons, hscore]
    rfl
  have hanswered : Rpc.answeredAttributes DevChain.firstEntity
      (.fromOptions (some DevChain.namedFields)) = some [DevChain.scoreData] := hattributes
  exact ⟨_, Option.map_eq_some_iff.mpr ⟨_, hanswered, rfl⟩, List.mem_singleton_self _⟩

/-- The text `score = 42`, as it comes from the answer for the first entity. -/
theorem asked_openRun : ∃ d key v,
    @Rpc.entityDataFrom DevChain.noSummaries DevChain.firstEntity
      (.fromOptions (some DevChain.namedFields)) = some d ∧
    @parse latinTables (equalityText DevChain.scoreData.key DevChain.scoreData.literal) =
      .ok (.eq key v) ∧
    (key.pairKeyBytes ∈ Set.univ → ∀ sizes : ℕ → Option UInt64, ∃ m responses,
      @Rpc.Asks _ _ latinTables DevChain.noSummaries
        (DevChain.provider (Chain.run DevChain.openRun).world)
        (equalityText DevChain.scoreData.key DevChain.scoreData.literal) none
        (some DevChain.namedFields) ((List.range m).map sizes) none responses ∧
      d ∈ responses.flatMap (·.data) ∧
      ∀ d' ∈ responses.flatMap (·.data), ∃ b f,
        Live DevChain.tradeScope devChainId (Chain.run DevChain.openRun).world b f ∧
        Carries f.annotations key.pairKeyBytes v ∧
        @Rpc.entityDataFrom DevChain.noSummaries f (.fromOptions (some DevChain.namedFields)) =
          some d') := by
  let _ := latinTables
  let _ := DevChain.noSummaries
  have hzero : entityAddress DevChain.createKey ≠ 0 := by decide +kernel
  obtain ⟨d, hd, hscore⟩ := entityDataFrom_firstEntity
  have hname : IsName DevChain.scoreData.key := tokenize_eq_ident_iff.mp (by decide +kernel)
  have htext : Says d DevChain.scoreData.key DevChain.scoreData.literal :=
    .userAttribute hscore hname fun _ => by
      rw [DevChain.scoreData, decimalValue_decimalDigits]
      decide
  have hsnap : Rpc.snapshotFor (DevChain.provider (Chain.run DevChain.openRun).world) none =
      .ok ((Chain.run DevChain.openRun).world, 5) := rfl
  obtain ⟨key, v, hparse, hfinds⟩ := asked_run DevChain.facts_openRun.allowed
    DevChain.facts_openRun.sound DevChain.facts_openRun.only DevChain.facts_openRun.creates
    (namesKeysIn_of_facts Set.univ DevChain.facts_openRun)
    (oneTierIn_of_facts Set.univ DevChain.facts_openRun) trivial covers_all_tradeScope hsnap hzero
    DevChain.openFacts_openRun.first hd htext
  exact ⟨d, key, v, hd, hparse, hfinds⟩

end Arkiv
