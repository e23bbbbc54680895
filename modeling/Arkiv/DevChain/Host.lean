import Mathlib
import Arkiv.Lib.Keccak
import Arkiv.Model.Chain

/-!
# The development chain

Concrete functions in the place of the crates: Keccak-256, the roaring layout of
small bitmaps, the ABI layout of `execute(Operation[])`, hexadecimal text, and
the receipts that the development signer has signed.

## Main definitions

- `Roaring.serialize`, `Roaring.deserialize` — one array container
- `decodeExecute`, `encodeExecute` — the calldata of a batch, and its round trip
- `reference`, `referenceToVec` — a signed reference and its JSON text
- the instance of `Host`
- `callOf`, `step_callOf` — a call of `execute`, and the state after it
-/

namespace Arkiv.DevChain

open ByteString

/-- The low `w` bytes of `n`, least significant byte first. -/
def le (w n : ℕ) : Bytes := (be w n).reverse

namespace Roaring

/-- The IDs of a set in ascending order. -/
def members (s : Finset UInt64) : List ℕ :=
  (List.range (s.sup UInt64.toNat + 1)).filter fun n => n < 2 ^ 64 ∧ UInt64.ofNat n ∈ s

theorem mem_members {s : Finset UInt64} {n : ℕ} :
    n ∈ members s ↔ n < 2 ^ 64 ∧ UInt64.ofNat n ∈ s := by
  simp only [members, List.mem_filter, List.mem_range, decide_eq_true_eq, and_iff_right_iff_imp]
  rintro ⟨hn, hs⟩
  have hle : (UInt64.ofNat n).toNat ≤ s.sup UInt64.toNat := Finset.le_sup (f := UInt64.toNat) hs
  rw [UInt64.toNat_ofNat_of_lt' hn] at hle
  omega

/-- One high key, one container: cookie, count, key and cardinality, offset. -/
def header (card : ℕ) : Bytes :=
  le 8 1 ++ le 4 0 ++ le 4 12346 ++ le 4 1 ++ le 2 0 ++ le 2 (card - 1) ++ le 4 16

/-- Small sets have the portable layout; others are listed after the byte `0xFF`. -/
def serialize (s : Finset UInt64) : Bytes :=
  let ids := members s
  if ids = [] then List.replicate 8 0
  else if ids.all (· < 2 ^ 16) then header ids.length ++ ids.flatMap (le 2)
  else 0xFF :: ids.flatMap (be 8)

/-- The numbers of `w` bytes each, as many as `n`. -/
def numbers (read : Bytes → ℕ) (w : ℕ) : ℕ → Bytes → List ℕ
  | 0, _ => []
  | n + 1, bytes => read (bytes.take w) :: numbers read w n (bytes.drop w)

def deserialize (bytes : Bytes) : Option (Finset UInt64) :=
  if bytes = List.replicate 8 0 then some ∅
  else if bytes.head? = some 0xFF then
    some ((numbers ofBe 8 ((bytes.length - 1) / 8) bytes.tail).map UInt64.ofNat).toFinset
  else if bytes.take 28 = header ((bytes.length - 28) / 2) then
    some ((numbers (fun bs => ofBe bs.reverse) 2 ((bytes.length - 28) / 2) (bytes.drop 28)).map
      UInt64.ofNat).toFinset
  else none

theorem numbers_flatMap {read : Bytes → ℕ} {write : ℕ → Bytes} {w : ℕ}
    (hw : ∀ n, (write n).length = w) {ns : List ℕ} (h : ∀ n ∈ ns, read (write n) = n) :
    numbers read w ns.length (ns.flatMap write) = ns := by
  induction ns with
  | nil => rfl
  | cons n ns ih =>
    obtain ⟨hn, hns⟩ := List.forall_mem_cons.mp h
    have htake : (write n ++ ns.flatMap write).take w = write n := List.take_left' (hw n)
    have hdrop : (write n ++ ns.flatMap write).drop w = ns.flatMap write := List.drop_left' (hw n)
    rw [List.flatMap_cons, List.length_cons, numbers, htake, hdrop, hn, ih hns]

theorem length_flatMap {α : Type} {write : α → Bytes} {w : ℕ} (hw : ∀ a, (write a).length = w)
    (ns : List α) : (ns.flatMap write).length = ns.length * w := by
  induction ns with
  | nil => simp
  | cons n ns ih =>
    rw [List.flatMap_cons, List.length_append, hw, ih, List.length_cons, Nat.succ_mul, Nat.add_comm]

@[simp] theorem le_length (w n : ℕ) : (le w n).length = w := by
  simp [le]

theorem header_length (card : ℕ) : (header card).length = 28 := by
  simp [header]

theorem toFinset_members (s : Finset UInt64) : ((members s).map UInt64.ofNat).toFinset = s := by
  ext i
  simp only [List.mem_toFinset, List.mem_map, mem_members]
  constructor
  · rintro ⟨n, ⟨-, hs⟩, rfl⟩
    exact hs
  · intro hs
    exact ⟨i.toNat, ⟨i.toNat_lt, by simpa using hs⟩, by simp⟩

theorem deserialize_serialize (s : Finset UInt64) : deserialize (serialize s) = some s := by
  have hset := toFinset_members s
  simp only [serialize]
  split
  · next hnil =>
    rw [hnil] at hset
    simp only [deserialize, if_true]
    exact congrArg some hset
  · next hnil =>
    split
    -- The cookie starts with the byte 1, which neither of the other layouts does.
    · next hsmall =>
      have hhead : ∀ c (rest : Bytes), header c ++ rest = 1 :: (header c ++ rest).tail := by
        intro c rest
        rfl
      have hlen : (header (members s).length ++ (members s).flatMap (le 2)).length =
          28 + (members s).length * 2 := by
        rw [List.length_append, header_length, length_flatMap (le_length 2)]
      have hcount : (28 + (members s).length * 2 - 28) / 2 = (members s).length := by omega
      have hne : header (members s).length ++ (members s).flatMap (le 2) ≠ List.replicate 8 0 := by
        rw [hhead]
        simp [List.replicate]
      have hne' : (header (members s).length ++ (members s).flatMap (le 2)).head? ≠ some 0xFF := by
        rw [hhead]
        simp
      rw [deserialize, if_neg hne, if_neg hne', hlen, hcount, List.take_left' (header_length _),
        if_pos rfl, List.drop_left' (header_length _), numbers_flatMap (le_length 2), hset]
      intro n hn
      have hn' := List.all_eq_true.mp hsmall n hn
      rw [le, List.reverse_reverse]
      exact ofBe_be (by simpa using hn')
    · next hbig =>
      have hlen : (0xFF :: (members s).flatMap (be 8)).length = 1 + (members s).length * 8 := by
        rw [List.length_cons, length_flatMap (be_length 8), Nat.add_comm]
      have hcount : (1 + (members s).length * 8 - 1) / 8 = (members s).length := by omega
      have hne : 0xFF :: (members s).flatMap (be 8) ≠ List.replicate 8 0 := by
        simp [List.replicate]
      rw [deserialize, if_neg hne, List.head?_cons, if_pos rfl, hlen, hcount, List.tail_cons,
        numbers_flatMap (be_length 8), hset]
      intro n hn
      exact ofBe_be (mem_members.mp hn).1

theorem serialize_ne_nil (s : Finset UInt64) : serialize s ≠ [] := by
  simp only [serialize]
  split
  · simp
  · split
    · intro h
      have := congrArg List.length h
      simp [header_length] at this
    · simp

end Roaring

section Abi

def wordBytes (n : ℕ) : Bytes := be 32 n

/-- Up to the next multiple of 32. -/
def padRight (bytes : Bytes) : Bytes := bytes ++ List.replicate ((32 - bytes.length % 32) % 32) 0

def encodeAttribute (a : AbiAttribute) : Bytes :=
  b256Bytes a.name ++ wordBytes a.valueType.toNat ++ wordsBytes a.value

/-- The ten words of the head, then payload and attributes. -/
def encodeOperation (op : Operation) : Bytes :=
  let payload := wordBytes op.payload.length ++ padRight op.payload
  let attributes := wordBytes op.attributes.length ++ op.attributes.flatMap encodeAttribute
  wordBytes op.operationType.toNat ++ b256Bytes op.entityKey ++ wordBytes 320 ++
    wordsBytes op.contentType ++ wordBytes (320 + payload.length) ++ wordBytes op.btl.toNat ++
    wordBytes op.newOwner.toNat ++ payload ++ attributes

/-- The offsets of the operations, counted from the first offset. -/
def offsets : ℕ → List Bytes → List ℕ
  | _, [] => []
  | start, op :: ops => start :: offsets (start + op.length) ops

def encodeExecute (ops : List Operation) : Bytes :=
  let encoded := ops.map encodeOperation
  wordBytes 32 ++ wordBytes ops.length ++
    (offsets (32 * ops.length) encoded).flatMap wordBytes ++ encoded.flatten

def wordAt (data : Bytes) (offset : ℕ) : Option ℕ :=
  let word := (data.drop offset).take 32
  if word.length = 32 then some (ofBe word) else none

def wordsAt (data : Bytes) (offset : ℕ) : Option Words := do
  let a ← wordAt data offset
  let b ← wordAt data (offset + 32)
  let c ← wordAt data (offset + 64)
  let d ← wordAt data (offset + 96)
  return #v[BitVec.ofNat 256 a, BitVec.ofNat 256 b, BitVec.ofNat 256 c, BitVec.ofNat 256 d]

def decodeAttribute (data : Bytes) (offset : ℕ) : Option AbiAttribute := do
  let name ← wordAt data offset
  let valueType ← wordAt data (offset + 32)
  let value ← wordsAt data (offset + 64)
  return ⟨BitVec.ofNat 256 name, UInt8.ofNat valueType, value⟩

/-- A length word with as many bytes behind it. -/
def bytesAt (data : Bytes) (offset : ℕ) : Option Bytes := do
  let len ← wordAt data offset
  let content := (data.drop (offset + 32)).take len
  if content.length = len then some content else none

/-- A count word with as many items of `size` bytes behind it. -/
def itemsAt {α : Type} (item : Bytes → ℕ → Option α) (size : ℕ) (data : Bytes) (offset : ℕ) :
    Option (List α) := do
  let n ← wordAt data offset
  if data.length < n then none
  else (List.range n).mapM fun i => item data (offset + 32 + size * i)

def decodeOperation (data : Bytes) (start : ℕ) : Option Operation := do
  let operationType ← wordAt data start
  let entityKey ← wordAt data (start + 32)
  let payload ← bytesAt data (start + (← wordAt data (start + 64)))
  let contentType ← wordsAt data (start + 96)
  let attributes ← itemsAt decodeAttribute 192 data (start + (← wordAt data (start + 224)))
  let btl ← wordAt data (start + 256)
  let newOwner ← wordAt data (start + 288)
  if paid : payload.length + 192 * attributes.length < 2 ^ 62 then
    some
      { operationType := UInt8.ofNat operationType
        entityKey := BitVec.ofNat 256 entityKey
        payload, contentType, attributes
        btl := UInt32.ofNat btl
        newOwner := BitVec.ofNat 160 newOwner
        paid }
  else none

def decodeExecute (data : Bytes) : Option (List Operation) := do
  let array ← wordAt data 0
  itemsAt (fun data slot => do decodeOperation data (array + 32 + (← wordAt data slot))) 32 data
    array

def decodeNonces (data : Bytes) : Option Address := (wordAt data 0).map (BitVec.ofNat 160)

end Abi

/-- The bytes stand in the data behind the offset. -/
def FoundAt (data : Bytes) (offset : ℕ) (bytes : Bytes) : Prop := bytes <+: data.drop offset

section RoundTrip

variable {data bytes more : Bytes} {offset : ℕ}

theorem FoundAt.drop_eq {rest : Bytes} (h : bytes ++ rest = data.drop offset) :
    data.drop (offset + bytes.length) = rest := by
  rw [← List.drop_drop, ← h, List.drop_left]

theorem foundAt_append : FoundAt data offset (bytes ++ more) ↔
    FoundAt data offset bytes ∧ FoundAt data (offset + bytes.length) more := by
  constructor
  · rintro ⟨rest, h⟩
    rw [List.append_assoc] at h
    exact ⟨⟨_, h⟩, ⟨rest, (FoundAt.drop_eq h).symm⟩⟩
  · rintro ⟨⟨rest, h⟩, ⟨rest', h'⟩⟩
    refine ⟨rest', ?_⟩
    rw [← h, ← FoundAt.drop_eq h, ← h', List.append_assoc]

theorem FoundAt.take_eq (h : FoundAt data offset bytes) :
    (data.drop offset).take bytes.length = bytes := (List.prefix_iff_eq_take.mp h).symm

theorem FoundAt.fits (h : FoundAt data offset bytes) (hne : bytes ≠ []) :
    offset + bytes.length ≤ data.length := by
  have hle := List.IsPrefix.length_le h
  have hpos := List.length_pos_of_ne_nil hne
  rw [List.length_drop] at hle
  omega

theorem FoundAt.wordAt {n : ℕ} (h : FoundAt data offset (wordBytes n)) (hn : n < 2 ^ 256) :
    wordAt data offset = some n := by
  have hlen : (wordBytes n).length = 32 := be_length 32 n
  have htake := h.take_eq
  rw [hlen] at htake
  simp only [DevChain.wordAt, htake, hlen, if_pos]
  exact congrArg some (ofBe_be hn)

theorem FoundAt.b256 {b : B256} (h : FoundAt data offset (b256Bytes b)) :
    DevChain.wordAt data offset = some b.toNat := FoundAt.wordAt h b.isLt

theorem FoundAt.wordsAt {words : Words} (h : FoundAt data offset (wordsBytes words)) :
    wordsAt data offset = some words := by
  obtain ⟨⟨l⟩, hl⟩ := words
  obtain ⟨a, b, c, d, rfl⟩ := List.length_eq_four.mp hl
  simp only [wordsBytes, Vector.toList_mk, List.flatMap_cons, List.flatMap_nil, foundAt_append,
    b256Bytes_length] at h
  obtain ⟨ha, hb, hc, hd, -⟩ := h
  simp [DevChain.wordsAt, ha.b256, hb.b256, hc.b256, hd.b256]

theorem FoundAt.bytesAt
    (h : FoundAt data offset (wordBytes bytes.length ++ padRight bytes))
    (hlen : bytes.length < 2 ^ 256) : bytesAt data offset = some bytes := by
  obtain ⟨hword, hbytes⟩ := foundAt_append.mp h
  rw [padRight, foundAt_append, wordBytes, be_length] at hbytes
  simp only [DevChain.bytesAt, hword.wordAt hlen, Option.bind_eq_bind, Option.bind_some,
    hbytes.1.take_eq, if_true]

theorem mapM_range {α : Type} {f : ℕ → Option α} {l : List α}
    (h : ∀ i (hi : i < l.length), f i = some l[i]) : (List.range l.length).mapM f = some l := by
  induction l using List.reverseRecOn with
  | nil => rfl
  | append_singleton l a ih =>
    have hl : ∀ i (hi : i < l.length), f i = some l[i] := by
      intro i hi
      rw [h i (by rw [List.length_append]; omega), List.getElem_append_left hi]
    have ha : f l.length = some a := by
      rw [h l.length (by simp), List.getElem_append_right le_rfl]
      simp
    rw [List.length_append, List.length_singleton, List.range_succ, List.mapM_append, ih hl]
    simp [ha]

theorem itemsAt_eq {α : Type} {item : Bytes → ℕ → Option α} {size : ℕ} {l : List α}
    (hword : wordAt data offset = some l.length) (hle : l.length ≤ data.length)
    (h : ∀ i (hi : i < l.length), item data (offset + 32 + size * i) = some l[i]) :
    itemsAt item size data offset = some l := by
  simp [itemsAt, hword, Nat.not_lt.mpr hle, mapM_range h]

/-- One of several items of equal size. -/
theorem FoundAt.item {α : Type} {write : α → Bytes} {size : ℕ}
    (hsize : ∀ a, (write a).length = size) {l : List α}
    (h : FoundAt data offset (l.flatMap write)) {i : ℕ} (hi : i < l.length) :
    FoundAt data (offset + size * i) (write l[i]) := by
  induction l generalizing offset i with
  | nil => cases hi
  | cons a l ih =>
    rw [List.flatMap_cons, foundAt_append, hsize] at h
    cases i with
    | zero => exact h.1
    | succ i =>
      have hrest := ih h.2 (Nat.lt_of_succ_lt_succ hi)
      rwa [show offset + size + size * i = offset + size * (i + 1) by ring] at hrest

theorem wordsBytes_length (words : Words) : (wordsBytes words).length = 128 := by
  rw [wordsBytes, Roaring.length_flatMap b256Bytes_length, Vector.length_toList]

theorem encodeAttribute_length (a : AbiAttribute) : (encodeAttribute a).length = 192 := by
  simp [encodeAttribute, wordsBytes_length, wordBytes]

theorem FoundAt.attribute {a : AbiAttribute} (h : FoundAt data offset (encodeAttribute a)) :
    decodeAttribute data offset = some a := by
  have hlen : ∀ n, (wordBytes n).length = 32 := be_length 32
  simp only [encodeAttribute, foundAt_append, List.length_append, b256Bytes_length, hlen] at h
  obtain ⟨⟨hname, htype⟩, hvalue⟩ := h
  have ht := a.valueType.toNat_lt
  simp [decodeAttribute, hname.b256, htype.wordAt (by omega), hvalue.wordsAt]

theorem FoundAt.attributes {l : List AbiAttribute}
    (h : FoundAt data offset (wordBytes l.length ++ l.flatMap encodeAttribute))
    (hlen : l.length < 2 ^ 62) : itemsAt decodeAttribute 192 data offset = some l := by
  have hwordlen : (wordBytes l.length).length = 32 := be_length 32 _
  have hle := h.fits (List.append_ne_nil_of_left_ne_nil (List.ne_nil_of_length_pos (by omega)) _)
  obtain ⟨hword, hitems⟩ := foundAt_append.mp h
  rw [hwordlen] at hitems
  refine itemsAt_eq (hword.wordAt (by omega)) ?_ fun i hi =>
    (hitems.item encodeAttribute_length hi).attribute
  rw [List.length_append, Roaring.length_flatMap encodeAttribute_length] at hle
  omega

theorem FoundAt.operation {op : Operation} (h : FoundAt data offset (encodeOperation op)) :
    decodeOperation data offset = some op := by
  obtain ⟨operationType, entityKey, payload, contentType, attributes, btl, newOwner, paid⟩ := op
  have hlen : ∀ n, (wordBytes n).length = 32 := be_length 32
  have hwords := wordsBytes_length contentType
  have htype := operationType.toNat_lt
  have hbtl := btl.toNat_lt
  have howner := newOwner.isLt
  have hpad : (padRight payload).length ≤ payload.length + 32 := by
    rw [padRight, List.length_append, List.length_replicate]
    omega
  -- The ten words of the head, then the tails at 320 and behind the payload.
  simp only [encodeOperation] at h
  obtain ⟨h, hattributes⟩ := foundAt_append.mp h
  obtain ⟨h, hpayload⟩ := foundAt_append.mp h
  have hbytes := FoundAt.bytesAt hpayload (by omega)
  have hitems := FoundAt.attributes hattributes (by omega)
  simp only [foundAt_append, List.length_append, b256Bytes_length, hlen, hwords,
    Nat.reduceAdd] at h hbytes hitems
  obtain ⟨⟨⟨⟨⟨⟨htypeAt, hkey⟩, hstart⟩, hcontent⟩, hoffset⟩, hbtlAt⟩, hownerAt⟩ := h
  simp [decodeOperation, htypeAt.wordAt (by omega), hkey.b256, hstart.wordAt (by omega),
    hcontent.wordsAt, hoffset.wordAt (by omega), hbtlAt.wordAt (by omega),
    hownerAt.wordAt (by omega), hbytes, hitems]
  exact paid

/-- The offsets lead to the items. -/
theorem FoundAt.flatten {items : List Bytes} {base start : ℕ}
    (h : FoundAt data (base + start) items.flatten) {i : ℕ} (hi : i < items.length) :
    ∃ k, (offsets start items)[i]? = some k ∧
      k + items[i].length ≤ start + items.flatten.length ∧ FoundAt data (base + k) items[i] := by
  induction items generalizing start i with
  | nil => cases hi
  | cons a items ih =>
    rw [List.flatten_cons, foundAt_append] at h
    cases i with
    | zero =>
      refine ⟨start, rfl, ?_, h.1⟩
      simp
    | succ i =>
      rw [Nat.add_assoc] at h
      obtain ⟨k, hk, hle, hfound⟩ := ih h.2 (Nat.lt_of_succ_lt_succ hi)
      refine ⟨k, hk, ?_, hfound⟩
      rw [List.flatten_cons, List.length_append, List.getElem_cons_succ]
      omega

theorem offsets_length (start : ℕ) (items : List Bytes) :
    (offsets start items).length = items.length := by
  induction items generalizing start with
  | nil => rfl
  | cons a items ih => rw [offsets, List.length_cons, ih, List.length_cons]

/-- A batch is read where its parts are found. -/
theorem decodeExecute_of_foundAt {ops : List Operation} (hlen : data.length < 2 ^ 256)
    (harray : FoundAt data 0 (wordBytes 32)) (hcount : FoundAt data 32 (wordBytes ops.length))
    (hoffsets : FoundAt data 64
      ((offsets (32 * ops.length) (ops.map encodeOperation)).flatMap wordBytes))
    (hbodies : FoundAt data (64 + 32 * ops.length) (ops.map encodeOperation).flatten)
    (hfits : 64 + 32 * ops.length + (ops.map encodeOperation).flatten.length ≤ data.length) :
    decodeExecute data = some ops := by
  have hwordlen : ∀ n, (wordBytes n).length = 32 := be_length 32
  rw [decodeExecute, harray.wordAt (by decide), Option.bind_eq_bind, Option.bind_some]
  refine itemsAt_eq (hcount.wordAt (by omega)) (by omega) fun i hi => ?_
  have hi' : i < (ops.map encodeOperation).length := by rwa [List.length_map]
  obtain ⟨k, hk, hle, hfound⟩ := hbodies.flatten hi'
  obtain ⟨hlt, hkeq⟩ := List.getElem?_eq_some_iff.mp hk
  have hword := hoffsets.item hwordlen hlt
  rw [hkeq] at hword
  rw [List.getElem_map] at hfound
  rw [hword.wordAt (by omega), Option.bind_eq_bind, Option.bind_some]
  exact hfound.operation

theorem encodeOperation_length_le (op : Operation) : (encodeOperation op).length ≤ 2 ^ 63 := by
  have hlen : ∀ n, (wordBytes n).length = 32 := be_length 32
  have hwords := wordsBytes_length op.contentType
  have hpad : (padRight op.payload).length ≤ op.payload.length + 32 := by
    rw [padRight, List.length_append, List.length_replicate]
    omega
  have hpaid := op.paid
  simp only [encodeOperation, List.length_append, b256Bytes_length, hlen, hwords,
    Roaring.length_flatMap encodeAttribute_length]
  omega

end RoundTrip

/-- The calldata of a batch is far from the end of the address space. -/
theorem encodeExecute_length_lt {ops : List Operation} (h : ops.length < 2 ^ 64) :
    (encodeExecute ops).length < 2 ^ 256 := by
  have hwordlen : ∀ n, (wordBytes n).length = 32 := be_length 32
  have hbodies : ((ops.map encodeOperation).flatten).length ≤ ops.length * 2 ^ 63 := by
    clear h
    induction ops with
    | nil => simp
    | cons op ops ih =>
      have hle := encodeOperation_length_le op
      rw [List.map_cons, List.flatten_cons, List.length_append, List.length_cons, Nat.succ_mul]
      omega
  simp only [encodeExecute, List.length_append, hwordlen,
    Roaring.length_flatMap hwordlen, offsets_length, List.length_map]
  omega

/-- **Calldata round trip**: the batch that is written is the batch that is read. -/
theorem decodeExecute_encodeExecute {ops : List Operation}
    (h : (encodeExecute ops).length < 2 ^ 256) :
    decodeExecute (encodeExecute ops) = some ops := by
  have hwordlen : ∀ n, (wordBytes n).length = 32 := be_length 32
  have hoffsets : ((offsets (32 * ops.length) (ops.map encodeOperation)).flatMap wordBytes).length =
      32 * ops.length := by
    rw [Roaring.length_flatMap hwordlen, offsets_length, List.length_map, Nat.mul_comm]
  have hall : FoundAt (encodeExecute ops) 0 (wordBytes 32 ++ wordBytes ops.length ++
    (offsets (32 * ops.length) (ops.map encodeOperation)).flatMap wordBytes ++
    (ops.map encodeOperation).flatten) := List.prefix_rfl
  simp only [foundAt_append, List.length_append, hwordlen, hoffsets, Nat.reduceAdd,
    Nat.zero_add] at hall
  obtain ⟨⟨⟨harray, hcount⟩, hwords⟩, hbodies⟩ := hall
  refine decodeExecute_of_foundAt h harray hcount hwords hbodies (le_of_eq ?_)
  simp only [encodeExecute, List.length_append, hwordlen, hoffsets, Nat.reduceAdd]

section Hex

def hexValue (b : UInt8) : Option ℕ :=
  if 0x30 ≤ b && b ≤ 0x39 then some (b.toNat - 0x30)
  else if 0x61 ≤ b && b ≤ 0x66 then some (b.toNat - 0x57)
  else if 0x41 ≤ b && b ≤ 0x46 then some (b.toNat - 0x37)
  else none

def encodePrefixed (bytes : Bytes) : Bytes := ascii "0x" ++ toHex bytes

def ofHex : Bytes → Option Bytes
  | [] => some []
  | [_] => none
  | a :: b :: rest => do
    let high ← hexValue a
    let low ← hexValue b
    let bytes ← ofHex rest
    return UInt8.ofNat (16 * high + low) :: bytes

def decodeToSlice (n : ℕ) (text : Bytes) : Option (Vector UInt8 n) := do
  let bytes ← ofHex text
  if h : bytes.length = n then some ⟨bytes.toArray, by simpa using h⟩ else none

def parseAddress (text : Bytes) : Option Address := do
  let bytes ← ofHex ((stripPrefix (ascii "0x") text).getD text)
  if bytes.length = 20 then some (BitVec.ofNat 160 (ofBe bytes)) else none

end Hex

section Receipts

def quoted (text : Bytes) : Bytes := ascii "\"" ++ text ++ ascii "\""

def decimal (n : ℕ) : Bytes := (Nat.toDigits 10 n).map fun c => UInt8.ofNat c.toNat

/-- A JSON object without white space. -/
def object (fields : List (String × Bytes)) : Bytes :=
  ascii "\x7b" ++
    (List.intercalate (ascii ",") <| fields.map fun f => quoted (ascii f.1) ++ ascii ":" ++ f.2) ++
    ascii "\x7d"

/-- `serde_json::to_vec` of a receipt. -/
def receiptToVec (r : PayloadReceiptJson) : Bytes :=
  object
    [("service", quoted r.service), ("action", quoted r.action), ("payloadId", quoted r.payloadId),
     ("namespace", quoted r.ns), ("checksum", quoted r.checksum),
     ("sizeBytes", decimal r.sizeBytes.toNat), ("submittedAt", quoted r.submittedAt),
     ("nonce", quoted r.nonce), ("payment", decimal r.payment.toNat)]

def signatureToVec (s : PayloadSignatureJson) : Bytes :=
  object
    [("scheme", quoted s.scheme), ("signer", quoted s.signer), ("receipt", receiptToVec s.receipt),
     ("messageHash", quoted s.messageHash), ("signature", quoted s.signature), ("r", quoted s.r),
     ("s", quoted s.s), ("v", decimal s.v.toNat)]

/-- The JSON text of a reference in the order of the provider. -/
def referenceToVec (r : PayloadReferenceJson) : Bytes :=
  object
    [("kind", quoted r.kind), ("version", decimal r.version.toNat), ("provider", quoted r.provider),
     ("id", quoted r.id), ("namespace", quoted r.ns),
     ("contentType", quoted (r.contentType.getD [])), ("checksum", quoted r.checksum),
     ("sizeBytes", decimal r.sizeBytes.toNat), ("submittedAt", quoted r.submittedAt),
     ("nonce", quoted r.nonce), ("payment", decimal r.payment.toNat),
     ("signature", signatureToVec r.signature)]

/-- What the development signer signs for a nonce: the message hash and the signature. -/
structure SignedReceipt where
  nonce : B256
  messageHash : B256
  r : B256
  s : B256

def devSigner : Address := 0x7e5f4552091a69125d5dfcb7b8c2659029395bdf#160

def hexText (b : B256) : Bytes := encodePrefixed (b256Bytes b)

/-- The receipt of the development chain under a nonce. -/
def receipt (nonce : B256) : PayloadReceiptJson where
  service := payloadProviderService
  action := payloadProviderReceiptAction
  payloadId := ascii "a806b74c6c933e9c0c3cfd7c099c7c6cdbf86bef1a48da310a90bd050c37b4e5"
  ns := ascii "atlas.test"
  checksum := ascii "sha256:86a4700d6cf4c679fb010312f20e911e86beb1336e5b78ad8b02f1ac6e10c878"
  sizeBytes := 42
  submittedAt := ascii "2026-06-24T15:24:30Z"
  nonce := hexText nonce
  payment := 100000

def reference (signed : SignedReceipt) : PayloadReferenceJson where
  kind := payloadReferenceKind
  version := payloadReferenceVersion
  provider := payloadProviderService
  id := (receipt signed.nonce).payloadId
  ns := (receipt signed.nonce).ns
  contentType := some (ascii "text/plain")
  checksum := (receipt signed.nonce).checksum
  sizeBytes := 42
  submittedAt := (receipt signed.nonce).submittedAt
  nonce := hexText signed.nonce
  payment := 100000
  signature :=
    { scheme := ascii "eip191"
      signer := encodePrefixed (addressBytes devSigner)
      receipt := receipt signed.nonce
      messageHash := hexText signed.messageHash
      signature := encodePrefixed (b256Bytes signed.r ++ b256Bytes signed.s ++ [27])
      r := hexText signed.r
      s := hexText signed.s
      v := 27 }

/-- Two receipts signed with the development key. -/
def firstReceipt : SignedReceipt where
  nonce := 1
  messageHash := 0xc26441853fe5760f4b5621649c8c0a2a7645b81793c3b367eb7f69f936736080#256
  r := 0x175505ad691cf7c80733ab39c0158d850182176090fc1365e71a13f61b2dadaa#256
  s := 0x66e455ba88196d2a1570c326c3813cbc8e3b417ef79891db2ed934bdb4d68706#256

def secondReceipt : SignedReceipt where
  nonce := 2
  messageHash := 0x6634de1b00733ceb8a29d0b77b3119324a944a52bd82da079a402e4e977d50c6#256
  r := 0xb0dee1f50702b66d6106c946d59cc8ae9ae16e0d238cbc22dc609c8dc784c2ad#256
  s := 0x6f76ec1bf9fab3a243e488e6906597696f5f2e15fc3c469055f9db3ad4095f3e#256

def signedReceipts : List SignedReceipt := [firstReceipt, secondReceipt]

/-- `serde_json::from_slice` on the signed references. -/
def fromSlice (payload : Bytes) : Option PayloadReferenceJson :=
  (signedReceipts.map reference).find? fun r => referenceToVec r = payload

def eip191HashMessage (message : Bytes) : B256 :=
  KeccakSponge.digest (0x19 :: ascii "Ethereum Signed Message:\n" ++ decimal message.length ++ message)

/-- The signer behind the signatures that it has made. -/
def recoverAddressFromPrehash (r s : B256) (parity : Bool) (prehash : B256) : Option Address :=
  (signedReceipts.find? fun x =>
    x.r = r ∧ x.s = s ∧ parity = false ∧ x.messageHash = prehash).map fun _ => devSigner

end Receipts

/-- A transfer needs the balance. -/
def transfer (balances : Address → ℕ) (src dst : Address) (amount : ℕ) : Option (Address → ℕ) :=
  if balances src < amount then none
  else
    let debited := Function.update balances src (balances src - amount)
    some (Function.update debited dst (debited dst + amount))

instance host : Host where
  keccak256 := KeccakSponge.digest
  serialize := Roaring.serialize
  deserialize := Roaring.deserialize
  deserialize_serialize := Roaring.deserialize_serialize
  serialize_ne_nil := Roaring.serialize_ne_nil
  decodeExecute := decodeExecute
  decodeNonces := decodeNonces
  fromSlice := fromSlice
  receiptToVec := receiptToVec
  decodeToSlice := decodeToSlice
  encodePrefixed := encodePrefixed
  eip191HashMessage := eip191HashMessage
  parseAddress := parseAddress
  recoverAddressFromPrehash := recoverAddressFromPrehash
  transfer := transfer

section Calls

/-- Text in the four words of the ABI. -/
def wordsOf (text : Bytes) : Words :=
  Vector.ofFn fun i => BitVec.ofNat 256
    (ofBe (((text ++ List.replicate 128 0).drop (32 * i.val)).take 32))

/-- A number in the first word. -/
def oneWord (n : ℕ) : Words := #v[BitVec.ofNat 256 n, 0, 0, 0]

/-- A name padded with zeros. -/
def identOf (name : String) : B256 :=
  BitVec.ofNat 256 (ofBe ((ascii name ++ List.replicate 32 0).take 32))

/-- An empty content type. -/
def noWords : Words := #v[0, 0, 0, 0]

/-- Calldata without a payload and without attributes. -/
theorem nothing_paid : ([] : Bytes).length + 192 * ([] : List AbiAttribute).length < 2 ^ 62 := by
  decide

def devCaller : Address := 0x00000000000000000000000000000000000000aa#160

/-- The second caller. -/
def devBuyer : Address := 0x00000000000000000000000000000000000000bb#160

/-- A call of `execute` with a batch. -/
def callOf (caller : Address) (blockNumber : ℕ) (ops : List Operation) : PrecompileInput where
  targetAddress := arkivAddress
  bytecodeAddress := arkivAddress
  caller := caller
  value := 0
  isStatic := false
  data := executeSelector ++ encodeExecute ops
  gas := 30000000
  chainId := devChainId
  blockNumber := blockNumber
  baseFee := 7
  schedule := []

/-- The context of such a call. -/
def contextOf (caller : Address) (blockNumber : ℕ) : CallContext where
  caller := caller
  chainId := devChainId
  currentBlock := satToU64 blockNumber
  baseFee := 7
  schedule := []

/-- The state after such a call. -/
def batch (s : ChainState) (caller : Address) (blockNumber : ℕ) (ops : List Operation) :
    ChainState :=
  if ops = [] ∨ 30000000 < totalGas ops then s
  else
    match applyOps (contextOf caller blockNumber) s.world ops with
    | .ok w => ⟨w, s.history ++
        Runs.trace opStep s.world (ops.map (OpCall.mk (contextOf caller blockNumber)))⟩
    | .error _ => s

variable {caller : Address} {blockNumber : ℕ} {ops : List Operation}

theorem context_callOf : (callOf caller blockNumber ops).context = contextOf caller blockNumber :=
  rfl

theorem take_callOf : (callOf caller blockNumber ops).data.take 4 = executeSelector :=
  List.take_left' rfl

theorem drop_callOf : (callOf caller blockNumber ops).data.drop 4 = encodeExecute ops :=
  List.drop_left' rfl

theorem ops_callOf (hlen : ops.length < 2 ^ 64) :
    (callOf caller blockNumber ops).ops = ops.map (OpCall.mk (contextOf caller blockNumber)) := by
  have hdecode : AbiDecoder.decodeExecute (encodeExecute ops) = some ops :=
    decodeExecute_encodeExecute (encodeExecute_length_lt hlen)
  rw [PrecompileInput.ops, if_pos take_callOf, drop_callOf, hdecode, Option.getD_some,
    context_callOf]

theorem arkivPrecompile_callOf (w : World) (hlen : ops.length < 2 ^ 64) :
    arkivPrecompile (callOf caller blockNumber ops) w =
      executeOps (callOf caller blockNumber ops) w ops := by
  have hdecode : AbiDecoder.decodeExecute (encodeExecute ops) = some ops :=
    decodeExecute_encodeExecute (encodeExecute_length_lt hlen)
  have hlength : ¬(callOf caller blockNumber ops).data.length < 4 := by
    have htake : ((callOf caller blockNumber ops).data.take 4).length = executeSelector.length :=
      congrArg List.length take_callOf
    rw [List.length_take, show executeSelector.length = 4 from rfl] at htake
    omega
  have hnonces : executeSelector ≠ noncesSelector := by decide
  have htarget : ¬(callOf caller blockNumber ops).targetAddress ≠
      (callOf caller blockNumber ops).bytecodeAddress := not_not.mpr rfl
  have hvalue : ¬(callOf caller blockNumber ops).value ≠ 0 := not_not.mpr rfl
  rw [arkivPrecompile, if_neg htarget, if_neg hvalue, if_neg hlength]
  dsimp only
  rw [take_callOf, if_neg hnonces, if_pos rfl, drop_callOf, dispatchExecute, hdecode]
  rfl

/-- **A call with a batch** is the batch, without its calldata. -/
theorem step_callOf (s : ChainState) (hlen : ops.length < 2 ^ 64) :
    Chain.step s (.call (callOf caller blockNumber ops)) = batch s caller blockNumber ops := by
  have hgas : (callOf caller blockNumber ops).gas = 30000000 := rfl
  rw [Chain.step, arkivPrecompile_callOf s.world hlen, executeOps, ops_callOf hlen,
    context_callOf, hgas, batch]
  by_cases hnil : ops = []
  · rw [if_pos hnil, if_pos (.inl hnil)]
    rfl
  rw [if_neg hnil]
  by_cases hout : 30000000 < totalGas ops
  · simp only [if_pos hout, if_pos (Or.inr hout : ops = [] ∨ _)]
  · simp only [if_neg hout, if_neg (not_or.mpr ⟨hnil, hout⟩)]
    cases applyOps (contextOf caller blockNumber) s.world ops with
    | ok w => rfl
    | error e => cases e <;> rfl

end Calls

end Arkiv.DevChain
