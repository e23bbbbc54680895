import Arkiv.Lib.Bytes

/-!
# Recursive length prefix encoding

Canonical RLP headers, decoders that consume a prefix of their input, and
codecs for unsigned integers, fixed-width strings and lists of a codec's
values. A decoder rejects every non-canonical form of what it reads.

## Main definitions

- `Header.encode`, `Header.decode` — the short and long string and list headers
- `Codec` — an encoder with its decoder; `Codec.Inverts` says decoding undoes
  encoding on the values of a predicate, whatever follows in the buffer
- `uint`, `fixed`, `vec` — the codecs of the three kinds of field
- `Codec.pair`, `Codec.iso`, `Codec.struct` — records from their fields
- `Codec.Exact` — decoding undoes encoding wherever a header can announce the length
-/

namespace Rlp

open ByteString

/-- Why a decoder rejects its input. -/
inductive Error where
  | overflow
  | leadingZero
  | inputTooShort
  | nonCanonicalSingleByte
  | nonCanonicalSize
  | unexpectedLength
  | unexpectedString
  | unexpectedList
  | listLengthMismatch (expected got : ℕ)
  deriving DecidableEq, Repr

/-- A decoder returns the value and what is left of the buffer. -/
abbrev Decoder (α : Type) := Bytes → Except Error (α × Bytes)

/-- The kind and the payload length announced by a header. -/
structure Header where
  list : Bool
  payloadLength : ℕ
  deriving DecidableEq, Repr

/-- First byte of the empty string and of the empty list. -/
def Header.emptyCode (list : Bool) : ℕ := if list then 0xC0 else 0x80

/-- Short form below 56 bytes, long form from there on. -/
def Header.encode (h : Header) : Bytes :=
  if h.payloadLength < 56 then
    [UInt8.ofNat (Header.emptyCode h.list + h.payloadLength)]
  else
    UInt8.ofNat (Header.emptyCode h.list + 55 + byteLen h.payloadLength) :: minBe h.payloadLength

/-- A big-endian number of at most `w` bytes without a leading zero. -/
def leftPad (w : ℕ) (bs : Bytes) : Except Error ℕ :=
  if bs.length > w then .error .overflow
  else match bs with
    | [] => .ok 0
    | b :: _ => if b = 0 then .error .leadingZero else .ok (ofBe bs)

/-- The payload must still be in the buffer. -/
private def Header.checked (h : Header) (rest : Bytes) : Except Error (Header × Bytes) :=
  if rest.length < h.payloadLength then .error .inputTooShort else .ok (h, rest)

/-- The long form: `lenOfLen` bytes of payload length. -/
def Header.decodeLong (list : Bool) (lenOfLen : ℕ) (rest : Bytes) :
    Except Error (Header × Bytes) :=
  if rest.length < lenOfLen then .error .inputTooShort
  else match leftPad 8 (rest.take lenOfLen) with
    | .error e => .error e
    | .ok len =>
      if len < 56 then .error .nonCanonicalSize
      else Header.checked ⟨list, len⟩ (rest.drop lenOfLen)

/-- Read a header; a byte below `0x80` is its own one-byte payload. -/
def Header.decode : Decoder Header
  | [] => .error .inputTooShort
  | b :: rest =>
    if b.toNat < 0x80 then .ok (⟨false, 1⟩, b :: rest)
    else if b.toNat ≤ 0xB7 then
      let len := b.toNat - 0x80
      if len = 1 then
        match rest with
        | [] => .error .inputTooShort
        | c :: _ =>
          if c.toNat < 0x80 then .error .nonCanonicalSingleByte
          else Header.checked ⟨false, len⟩ rest
      else Header.checked ⟨false, len⟩ rest
    else if b.toNat ≤ 0xBF then Header.decodeLong false (b.toNat - 0xB7) rest
    else if b.toNat ≤ 0xF7 then Header.checked ⟨true, b.toNat - 0xC0⟩ rest
    else Header.decodeLong true (b.toNat - 0xF7) rest

/-- A header of the expected kind, then its payload. -/
def decodeBytes (isList : Bool) : Decoder Bytes := fun buf =>
  match Header.decode buf with
  | .error e => .error e
  | .ok (h, rest) =>
    if h.list != isList then .error (if isList then .unexpectedString else .unexpectedList)
    else .ok (rest.take h.payloadLength, rest.drop h.payloadLength)

/-- One byte below `0x80` stands for itself. -/
def selfCoded : Bytes → Bool
  | [b] => b.toNat < 0x80
  | _ => false

/-- A string: the bytes, after a header unless they are self-coded. -/
def encodeString (bs : Bytes) : Bytes :=
  if selfCoded bs then bs else (Header.mk false bs.length).encode ++ bs

/-- A list of already encoded items. -/
def encodeList (payload : Bytes) : Bytes := (Header.mk true payload.length).encode ++ payload

theorem byteLen_pos {n : ℕ} (h : n ≠ 0) : 0 < byteLen n := by simp [byteLen, h]

/-- A length below `2^64` takes at most eight bytes. -/
theorem byteLen_le_eight {n : ℕ} (h : n < 2 ^ 64) : byteLen n ≤ 8 :=
  byteLen_le (by simpa using h)

theorem leftPad_minBe {w n : ℕ} (h : byteLen n ≤ w) : leftPad w (minBe n) = .ok n := by
  have hlen : ¬ (minBe n).length > w := by simpa using h
  unfold leftPad
  rw [if_neg hlen]
  split
  · next hnil => rw [← ofBe_minBe n, hnil, ofBe_nil]
  · next b bs hcons =>
    rw [if_neg (minBe_head_ne_zero hcons), ofBe_minBe]

theorem Header.encode_ne_nil (h : Header) : h.encode ≠ [] := by
  rw [Header.encode]; split <;> simp

theorem Header.encode_length_le {h : Header} (hl : h.payloadLength < 2 ^ 64) :
    h.encode.length ≤ 9 := by
  have := byteLen_le_eight hl
  rw [Header.encode]
  split
  · simp
  · simp only [List.length_cons, minBe_length]; omega

private theorem toNat_ofNat_lt {n : ℕ} (h : n < 256) : (UInt8.ofNat n).toNat = n := by
  rw [UInt8.toNat_ofNat', Nat.mod_eq_of_lt (by simpa using h)]

/-- The long form is read back. -/
private theorem Header.decodeLong_minBe (list : Bool) {len : ℕ} (h56 : 56 ≤ len)
    (h64 : len < 2 ^ 64) {rest : Bytes} (hr : len ≤ rest.length) :
    Header.decodeLong list (byteLen len) (minBe len ++ rest) = .ok (⟨list, len⟩, rest) := by
  have hshort : ¬ (minBe len ++ rest).length < byteLen len := by simp
  have htake : (minBe len ++ rest).take (byteLen len) = minBe len := by
    rw [List.take_left' (minBe_length len)]
  have hdrop : (minBe len ++ rest).drop (byteLen len) = rest := by
    rw [List.drop_left' (minBe_length len)]
  rw [Header.decodeLong, if_neg hshort, htake, leftPad_minBe (byteLen_le_eight h64)]
  simp only
  rw [if_neg (by omega), hdrop, Header.checked, if_neg (by simpa using hr)]

/-- Reading back a header, except for a string of one byte below `0x80`. -/
theorem Header.decode_encode (h : Header) (h64 : h.payloadLength < 2 ^ 64) {rest : Bytes}
    (hr : h.payloadLength ≤ rest.length)
    (h1 : h.list = false → h.payloadLength = 1 → ∀ c ∈ rest.head?, 0x80 ≤ c.toNat) :
    Header.decode (h.encode ++ rest) = .ok (h, rest) := by
  obtain ⟨list, len⟩ := h
  simp only at h64 hr h1
  have h8 := byteLen_le_eight h64
  by_cases h56 : len < 56
  · cases list with
    | false =>
      have hb : (UInt8.ofNat (0x80 + len)).toNat = 0x80 + len := toNat_ofNat_lt (by omega)
      simp only [Header.encode, Header.emptyCode, if_pos h56, List.singleton_append,
        Header.decode, Bool.false_eq_true, if_false, hb]
      rw [if_neg (by omega), if_pos (by omega), show 0x80 + len - 0x80 = len by omega]
      by_cases hone : len = 1
      · subst hone
        cases rest with
        | nil => simp at hr
        | cons c rest =>
          have hc := h1 rfl rfl c (by simp)
          simp only [if_true]
          rw [if_neg (by omega), Header.checked, if_neg (by simp)]
      · rw [if_neg hone, Header.checked, if_neg (by simpa using hr)]
    | true =>
      have hb : (UInt8.ofNat (0xC0 + len)).toNat = 0xC0 + len := toNat_ofNat_lt (by omega)
      simp only [Header.encode, Header.emptyCode, if_pos h56, List.singleton_append,
        Header.decode, if_true, hb]
      rw [if_neg (by omega), if_neg (by omega), if_neg (by omega), if_pos (by omega),
        show 0xC0 + len - 0xC0 = len by omega, Header.checked, if_neg (by simpa using hr)]
  · have hpos : 0 < byteLen len := byteLen_pos (by omega)
    cases list with
    | false =>
      have hb : (UInt8.ofNat (0x80 + 55 + byteLen len)).toNat = 0xB7 + byteLen len :=
        toNat_ofNat_lt (by omega)
      simp only [Header.encode, Header.emptyCode, if_neg h56, List.cons_append,
        Header.decode, Bool.false_eq_true, if_false, hb]
      rw [if_neg (by omega), if_neg (by omega), if_pos (by omega),
        show 0xB7 + byteLen len - 0xB7 = byteLen len by omega]
      exact Header.decodeLong_minBe false (by omega) h64 hr
    | true =>
      have hb : (UInt8.ofNat (0xC0 + 55 + byteLen len)).toNat = 0xF7 + byteLen len :=
        toNat_ofNat_lt (by omega)
      simp only [Header.encode, Header.emptyCode, if_neg h56, List.cons_append,
        Header.decode, if_true, hb]
      rw [if_neg (by omega), if_neg (by omega), if_neg (by omega), if_neg (by omega),
        show 0xF7 + byteLen len - 0xF7 = byteLen len by omega]
      exact Header.decodeLong_minBe true (by omega) h64 hr

theorem selfCoded_iff {bs : Bytes} : selfCoded bs = true ↔ ∃ b, bs = [b] ∧ b.toNat < 0x80 := by
  unfold selfCoded
  split
  · simp
  · next hne => simp only [Bool.false_eq_true, false_iff]; rintro ⟨b, rfl, _⟩; exact hne b rfl

theorem encodeString_ne_nil (bs : Bytes) : encodeString bs ≠ [] := by
  rw [encodeString]
  split
  · next h => obtain ⟨b, rfl, _⟩ := selfCoded_iff.mp h; simp
  · simp [Header.encode_ne_nil]

/-- A string is read back from the front of any buffer. -/
theorem decodeBytes_encodeString {bs : Bytes} (h64 : bs.length < 2 ^ 64) (rest : Bytes) :
    decodeBytes false (encodeString bs ++ rest) = .ok (bs, rest) := by
  by_cases hself : selfCoded bs = true
  · obtain ⟨b, rfl, hb⟩ := selfCoded_iff.mp hself
    simp [encodeString, hself, decodeBytes, Header.decode, hb]
  · have hhead : ∀ c ∈ (bs ++ rest).head?, bs.length = 1 → 0x80 ≤ c.toNat := by
      intro c hc hlen
      obtain ⟨b, rfl⟩ := List.length_eq_one_iff.mp hlen
      simp only [List.cons_append, List.head?_cons, Option.mem_some_iff] at hc
      subst hc
      exact Nat.le_of_not_lt fun hb => hself (selfCoded_iff.mpr ⟨b, rfl, hb⟩)
    have hdec := @Header.decode_encode ⟨false, bs.length⟩ h64 (bs ++ rest) (by simp)
      (fun _ hlen c hc => hhead c hc hlen)
    rw [encodeString, if_neg hself, List.append_assoc, decodeBytes, hdec]
    simp

theorem encodeList_ne_nil (payload : Bytes) : encodeList payload ≠ [] := by
  simp [encodeList, Header.encode_ne_nil]

/-- A list's payload is read back from the front of any buffer. -/
theorem decodeBytes_encodeList {payload : Bytes} (h64 : payload.length < 2 ^ 64) (rest : Bytes) :
    decodeBytes true (encodeList payload ++ rest) = .ok (payload, rest) := by
  have hdec := @Header.decode_encode ⟨true, payload.length⟩ h64 (payload ++ rest)
    (by simp) (by simp)
  rw [encodeList, List.append_assoc, decodeBytes, hdec]
  simp

/-- An encoder together with its decoder. -/
structure Codec (α : Type) where
  encode : α → Bytes
  decode : Decoder α

/-- Decoding undoes encoding on the values of `P`, and no such value encodes to
    the empty string. -/
structure Codec.Inverts {α : Type} (c : Codec α) (P : α → Prop) : Prop where
  decode_encode : ∀ a rest, P a → c.decode (c.encode a ++ rest) = .ok (a, rest)
  encode_ne_nil : ∀ a, c.encode a ≠ []

/-- Unsigned integers of `w` bytes, as their minimal big-endian string. -/
def uint (w : ℕ) : Codec ℕ where
  encode n := encodeString (minBe n)
  decode buf := do
    let (bs, rest) ← decodeBytes false buf
    let n ← leftPad w bs
    pure (n, rest)

/-- Strings of exactly `w` bytes. -/
def fixed (w : ℕ) : Codec Bytes where
  encode := encodeString
  decode buf := do
    let (bs, rest) ← decodeBytes false buf
    if bs.length = w then pure (bs, rest) else throw .unexpectedLength

/-- Decode items until the buffer is empty. The fuel is the buffer's length: an
    item takes at least one byte. -/
def decodeItems {α : Type} (dec : Decoder α) : ℕ → Bytes → Except Error (List α)
  | _, [] => .ok []
  | 0, _ :: _ => .error .inputTooShort
  | fuel + 1, b :: bs => do
    let (a, rest) ← dec (b :: bs)
    let as ← decodeItems dec fuel rest
    pure (a :: as)

/-- A vector is the list of its items' encodings. -/
def vec {α : Type} (c : Codec α) : Codec (List α) where
  encode as := encodeList (as.flatMap c.encode)
  decode buf := do
    let (payload, rest) ← decodeBytes true buf
    let as ← decodeItems c.decode payload.length payload
    pure (as, rest)

theorem uint_inverts {w : ℕ} (hw : w ≤ 8) : (uint w).Inverts (· < 256 ^ w) where
  decode_encode n rest hn := by
    have hlen := byteLen_le hn
    have hs : (minBe n).length < 2 ^ 64 := by rw [minBe_length]; omega
    simp [uint, decodeBytes_encodeString hs, leftPad_minBe hlen, bind, Except.bind, pure,
      Except.pure]
  encode_ne_nil n := encodeString_ne_nil _

theorem fixed_inverts {w : ℕ} (hw : w < 2 ^ 64) : (fixed w).Inverts (·.length = w) where
  decode_encode bs rest hb := by
    have hs : bs.length < 2 ^ 64 := by rw [hb]; exact hw
    simp [fixed, decodeBytes_encodeString hs, hb, bind, Except.bind, pure, Except.pure]
  encode_ne_nil bs := encodeString_ne_nil bs

/-- Item by item: enough fuel reads back the concatenation of the encodings. -/
theorem decodeItems_flatMap {α : Type} {c : Codec α} {P : α → Prop} (hc : c.Inverts P) :
    ∀ (as : List α) (fuel : ℕ), (∀ a ∈ as, P a) → (as.flatMap c.encode).length ≤ fuel →
      decodeItems c.decode fuel (as.flatMap c.encode) = .ok as := by
  intro as
  induction as with
  | nil => intro fuel _ _; cases fuel <;> rfl
  | cons a as ih =>
    intro fuel hP hfuel
    obtain ⟨hPa, hPas⟩ := List.forall_mem_cons.mp hP
    simp only [List.flatMap_cons, List.length_append] at hfuel ⊢
    have hpos : 0 < (c.encode a).length := List.length_pos_iff.mpr (hc.encode_ne_nil a)
    cases fuel with
    | zero => omega
    | succ fuel =>
      have hdec := hc.decode_encode a (as.flatMap c.encode) hPa
      have hrec := ih fuel hPas (by omega)
      cases hbuf : c.encode a ++ as.flatMap c.encode with
      | nil => simp [hc.encode_ne_nil a] at hbuf
      | cons b bs =>
        rw [hbuf] at hdec
        simp [decodeItems, hdec, hrec, bind, Except.bind, pure, Except.pure]

theorem vec_inverts {α : Type} {c : Codec α} {P : α → Prop} (hc : c.Inverts P) :
    (vec c).Inverts (fun as => (∀ a ∈ as, P a) ∧ (as.flatMap c.encode).length < 2 ^ 64) where
  decode_encode as rest h := by
    obtain ⟨hP, h64⟩ := h
    have hitems := decodeItems_flatMap hc as _ hP le_rfl
    simp only [vec, decodeBytes_encodeList h64, bind, Except.bind, pure, Except.pure]
    rw [hitems]
  encode_ne_nil as := encodeList_ne_nil _

/-- One value after the other. -/
def Codec.pair {α β : Type} (c : Codec α) (d : Codec β) : Codec (α × β) where
  encode p := c.encode p.1 ++ d.encode p.2
  decode buf := do
    let (a, rest) ← c.decode buf
    let (b, rest) ← d.decode rest
    pure ((a, b), rest)

/-- The same bytes, read as another type. -/
def Codec.iso {α β : Type} (c : Codec α) (enc : β → α) (dec : α → β) : Codec β where
  encode b := c.encode (enc b)
  decode buf := do
    let (a, rest) ← c.decode buf
    pure (dec a, rest)

/-- A record is the list of its fields. The fields are read from the whole buffer and must use
    up exactly what the header announces. -/
def Codec.struct {α : Type} (c : Codec α) : Codec α where
  encode a := encodeList (c.encode a)
  decode buf := do
    let (h, rest) ← Header.decode buf
    if h.list = false then throw .unexpectedString
    let (a, rest') ← c.decode rest
    if rest.length - rest'.length ≠ h.payloadLength then
      throw (.listLengthMismatch h.payloadLength (rest.length - rest'.length))
    pure (a, rest')

theorem Codec.Inverts.pair {α β : Type} {c : Codec α} {d : Codec β} {P : α → Prop} {Q : β → Prop}
    (hc : c.Inverts P) (hd : d.Inverts Q) : (c.pair d).Inverts fun p => P p.1 ∧ Q p.2 where
  decode_encode p rest h := by
    obtain ⟨hP, hQ⟩ := h
    simp only [Codec.pair, List.append_assoc, hc.decode_encode _ _ hP, hd.decode_encode _ _ hQ,
      bind, Except.bind, pure, Except.pure]
  encode_ne_nil p h := hc.encode_ne_nil p.1 (List.append_eq_nil_iff.mp h).1

theorem Codec.Inverts.iso {α β : Type} {c : Codec α} {P : α → Prop} {enc : β → α} {dec : α → β}
    (hc : c.Inverts P) (hdec : ∀ b, dec (enc b) = b) : (c.iso enc dec).Inverts fun b => P (enc b) where
  decode_encode b rest h := by
    simp only [Codec.iso, hc.decode_encode _ _ h, hdec, bind, Except.bind, pure, Except.pure]
  encode_ne_nil b := hc.encode_ne_nil (enc b)

theorem Codec.Inverts.struct {α : Type} {c : Codec α} {P : α → Prop} (hc : c.Inverts P) :
    c.struct.Inverts fun a => P a ∧ (c.encode a).length < 2 ^ 64 where
  decode_encode a rest h := by
    obtain ⟨hP, h64⟩ := h
    have hdec := @Header.decode_encode ⟨true, (c.encode a).length⟩ h64 (c.encode a ++ rest)
      (by simp) (by simp)
    simp [Codec.struct, encodeList, hdec, hc.decode_encode a rest hP, bind, Except.bind,
      pure, Except.pure]
  encode_ne_nil a := encodeList_ne_nil _

theorem Codec.Inverts.mono {α : Type} {c : Codec α} {P Q : α → Prop} (hc : c.Inverts P)
    (h : ∀ a, Q a → P a) : c.Inverts Q :=
  ⟨fun a rest hQ => hc.decode_encode a rest (h a hQ), hc.encode_ne_nil⟩

/-- Decoding undoes encoding on every value whose encoding has a 64-bit length. -/
def Codec.Exact {α : Type} (c : Codec α) : Prop := c.Inverts fun a => (c.encode a).length < 2 ^ 64

theorem length_le_encodeList (payload : Bytes) : payload.length ≤ (encodeList payload).length := by
  rw [encodeList, List.length_append]
  omega

theorem length_le_flatMap {α : Type} (f : α → Bytes) {a : α} {as : List α} (ha : a ∈ as) :
    (f a).length ≤ (as.flatMap f).length := by
  rw [List.length_flatMap]
  exact List.single_le_sum (fun n _ => Nat.zero_le n) _ (List.mem_map_of_mem ha)

theorem Codec.Inverts.exact {α : Type} {c : Codec α} (hc : c.Inverts fun _ => True) : c.Exact :=
  hc.mono fun _ _ => trivial

theorem Codec.Exact.pair {α β : Type} {c : Codec α} {d : Codec β} (hc : c.Exact) (hd : d.Exact) :
    (c.pair d).Exact :=
  (Codec.Inverts.pair hc hd).mono fun p h => by
    simp only [Codec.pair, List.length_append] at h
    constructor <;> omega

theorem Codec.Exact.iso {α β : Type} {c : Codec α} {enc : β → α} {dec : α → β} (hc : c.Exact)
    (hdec : ∀ b, dec (enc b) = b) : (c.iso enc dec).Exact := Codec.Inverts.iso hc hdec

theorem Codec.Exact.struct {α : Type} {c : Codec α} (hc : c.Exact) : c.struct.Exact :=
  (Codec.Inverts.struct hc).mono fun a h => by
    have hle := length_le_encodeList (c.encode a)
    simp only [Codec.struct] at h
    constructor <;> omega

theorem Codec.Exact.vec {α : Type} {c : Codec α} (hc : c.Exact) : (Rlp.vec c).Exact :=
  (vec_inverts hc).mono fun as h => by
    have hle := length_le_encodeList (as.flatMap c.encode)
    simp only [Rlp.vec] at h
    refine ⟨fun a ha => ?_, by omega⟩
    have hitem := length_le_flatMap c.encode ha
    omega

/-- Short strings take one header byte at most. -/
theorem encodeString_length_le {bs : Bytes} (h56 : bs.length < 56) :
    (encodeString bs).length ≤ 1 + bs.length := by
  rw [encodeString]
  split
  · omega
  · simp only [List.length_append, Header.encode, h56, if_true, List.length_singleton]
    omega

theorem encodeList_length_le {payload : Bytes} (h64 : payload.length < 2 ^ 64) :
    (encodeList payload).length ≤ 9 + payload.length := by
  have hh := Header.encode_length_le (h := ⟨true, payload.length⟩) h64
  simp only [encodeList, List.length_append]; omega

theorem uint_encode_length_le {w n : ℕ} (hw : w ≤ 8) (hn : n < 256 ^ w) :
    ((uint w).encode n).length ≤ 1 + w := by
  have hlen := byteLen_le hn
  have h := @encodeString_length_le (minBe n) (by rw [minBe_length]; omega)
  rw [minBe_length] at h
  simp only [uint]
  omega

/-- A vector whose items take at most `k` bytes each. -/
theorem flatMap_length_le {α : Type} {f : α → Bytes} {k : ℕ} {as : List α}
    (h : ∀ a ∈ as, (f a).length ≤ k) : (as.flatMap f).length ≤ k * as.length := by
  induction as with
  | nil => simp
  | cons a as ih =>
    obtain ⟨ha, has⟩ := List.forall_mem_cons.mp h
    have := ih has
    simp only [List.flatMap_cons, List.length_append, List.length_cons]
    rw [Nat.mul_add]; omega

end Rlp
