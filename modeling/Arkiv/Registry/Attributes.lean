import Mathlib
import Arkiv.Lib.Run
import Arkiv.Model.Precompile

/-!
# What validation says about stored attributes

An accepted name is a run of non-zero bytes with zeros behind it, so its stored
key has no zero byte and is no built-in key. Values and content types have the
sizes of their ABI words.

## Main definitions

- `IsIdent` — the names that the validation accepts
- `UserKey` — a key that an attribute from calldata can have
- `EntityRlp.WellFormed` — what every stored record satisfies
-/

namespace Arkiv

open ByteString

theorem stripTrailingZeros_append_replicate {name : Bytes} (h : (0 : UInt8) ∉ name) (n : ℕ) :
    stripTrailingZeros (name ++ List.replicate n 0) = name := by
  induction n with
  | zero =>
    rw [List.replicate_zero, List.append_nil, stripTrailingZeros, List.rdropWhile_eq_self_iff]
    intro hne hlast
    rw [beq_iff_eq] at hlast
    exact h (hlast ▸ List.getLast_mem hne)
  | succ n ih =>
    rw [List.replicate_succ', ← List.append_assoc, stripTrailingZeros,
      List.rdropWhile_concat_pos _ _ _ (by simp)]
    exact ih

theorem stripTrailingZeros_length_le (v : Bytes) : (stripTrailingZeros v).length ≤ v.length :=
  (List.rdropWhile_prefix _ v).length_le

/-- After a zero only zeros are accepted. -/
theorem validateIdentBytes_zeros {p : ℕ} {bs : Bytes} :
    validateIdentBytes p true bs = .ok () ↔ bs = List.replicate bs.length 0 := by
  induction bs generalizing p with
  | nil => simp [validateIdentBytes]
  | cons b bs ih =>
    rw [validateIdentBytes, List.length_cons, List.replicate_succ, List.cons.injEq, ← @ih (p + 1)]
    by_cases hb : b = 0
    · simp [hb]
    · simp [hb]

theorem identCharset_ne_zero {b : UInt8} (h : identCharset b = true) : b ≠ 0 := by
  rintro rfl
  exact absurd h (by decide)

theorem identCharset_of_leading {b : UInt8} (h : identLeading b = true) : identCharset b = true := by
  simp only [identLeading] at h
  simp [identCharset, h]

/-- Past the first position: characters of names up to some point, zeros from there on. -/
theorem validateIdentBytes_tail {p : ℕ} (hp : p ≠ 0) {bs : Bytes} :
    validateIdentBytes p false bs = .ok () ↔
      ∃ name n, bs = name ++ List.replicate n 0 ∧ ∀ b ∈ name, identCharset b = true := by
  induction bs generalizing p with
  | nil => exact ⟨fun _ => ⟨[], 0, rfl, by simp⟩, fun _ => rfl⟩
  | cons b bs ih =>
    rw [validateIdentBytes]
    by_cases hb : b = 0
    · rw [if_pos hb, validateIdentBytes_zeros]
      constructor
      · intro hzeros
        refine ⟨[], bs.length + 1, ?_, by simp⟩
        rw [List.nil_append, List.replicate_succ, ← hzeros, hb]
      · rintro ⟨name, n, heq, hname⟩
        cases name with
        | nil =>
          rw [List.nil_append] at heq
          have htail := List.eq_replicate_iff.mp heq
          exact List.eq_replicate_iff.mpr ⟨rfl, fun c hc => htail.2 c (List.mem_cons_of_mem _ hc)⟩
        | cons c name =>
          rw [List.cons_append, List.cons.injEq] at heq
          exact absurd (heq.1.symm.trans hb) (identCharset_ne_zero (hname c List.mem_cons_self))
    · rw [if_neg hb, if_neg hp]
      cases hok : identCharset b with
      | false =>
        simp only [Bool.not_false, Bool.or_true, if_true, reduceCtorEq, false_iff, not_exists]
        rintro name n ⟨heq, hname⟩
        cases name with
        | nil =>
          have hmem : b ∈ List.replicate n (0 : UInt8) := by
            rw [← List.nil_append (List.replicate n _), ← heq]
            exact List.mem_cons_self
          exact hb (List.eq_of_mem_replicate hmem)
        | cons c name =>
          rw [List.cons_append, List.cons.injEq] at heq
          rw [heq.1, hname c List.mem_cons_self] at hok
          exact Bool.noConfusion hok
      | true =>
        simp only [Bool.not_true, Bool.or_self, Bool.false_eq_true, if_false]
        rw [ih (Nat.succ_ne_zero p)]
        constructor
        · rintro ⟨name, n, rfl, hname⟩
          exact ⟨b :: name, n, rfl, List.forall_mem_cons.mpr ⟨hok, hname⟩⟩
        · rintro ⟨name, n, heq, hname⟩
          cases name with
          | nil =>
            have hmem : b ∈ List.replicate n (0 : UInt8) := by
              rw [← List.nil_append (List.replicate n _), ← heq]
              exact List.mem_cons_self
            exact absurd (List.eq_of_mem_replicate hmem) hb
          | cons c name =>
            rw [List.cons_append, List.cons.injEq] at heq
            exact ⟨name, n, heq.2, (List.forall_mem_cons.mp hname).2⟩

/-- A letter, then letters, digits, dots, dashes and underscores. -/
structure IsIdent (name : Bytes) : Prop where
  leading : ∃ b, name.head? = some b ∧ identLeading b = true
  charset : ∀ b ∈ name, identCharset b = true

theorem IsIdent.zero_notMem {name : Bytes} (h : IsIdent name) : (0 : UInt8) ∉ name := fun hzero =>
  identCharset_ne_zero (h.charset 0 hzero) rfl

/-- **Accepted words** are names with zeros behind them. -/
theorem validateIdent32_iff {raw : B256} :
    validateIdent32 raw = .ok () ↔
      ∃ name n, b256Bytes raw = name ++ List.replicate n 0 ∧ IsIdent name := by
  rw [validateIdent32]
  cases hbytes : b256Bytes raw with
  | nil =>
    have hlen := b256Bytes_length raw
    rw [hbytes] at hlen
    simp at hlen
  | cons b bs =>
    by_cases hb : b = 0
    · subst hb
      simp only [List.head?_cons, if_true, reduceCtorEq, false_iff, not_exists]
      rintro name n ⟨heq, hname⟩
      obtain ⟨c, hc, hlead⟩ := hname.leading
      cases name with
      | nil => simp at hc
      | cons d name =>
        rw [List.cons_append, List.cons.injEq] at heq
        exact identCharset_ne_zero (hname.charset d List.mem_cons_self) heq.1.symm
    · rw [List.head?_cons, if_neg (by simpa using hb), validateIdentBytes, if_neg hb, if_pos rfl]
      cases hlead : identLeading b with
      | false =>
        simp only [Bool.not_false, Bool.or_true, if_true, reduceCtorEq, false_iff, not_exists]
        rintro name n ⟨heq, hname⟩
        obtain ⟨c, hc, hc'⟩ := hname.leading
        cases name with
        | nil => simp at hc
        | cons d name =>
          rw [List.cons_append, List.cons.injEq] at heq
          rw [List.head?_cons, Option.some.injEq] at hc
          rw [heq.1, hc, hc'] at hlead
          exact Bool.noConfusion hlead
      | true =>
        simp only [Bool.not_true, Bool.or_self, Bool.false_eq_true, if_false]
        rw [validateIdentBytes_tail (by omega)]
        constructor
        · rintro ⟨name, n, rfl, hname⟩
          refine ⟨b :: name, n, rfl, ⟨b, rfl, hlead⟩, ?_⟩
          exact List.forall_mem_cons.mpr ⟨identCharset_of_leading hlead, hname⟩
        · rintro ⟨name, n, heq, hname⟩
          cases name with
          | nil =>
            obtain ⟨c, hc, -⟩ := hname.leading
            simp at hc
          | cons d name =>
            rw [List.cons_append, List.cons.injEq] at heq
            exact ⟨name, n, heq.2, (List.forall_mem_cons.mp hname.charset).2⟩

/-- The stored key of an accepted word is its name. -/
theorem isIdent_of_validateIdent32 {raw : B256} (h : validateIdent32 raw = .ok ()) :
    IsIdent (ident32ToBytes raw) ∧
      ∃ n, b256Bytes raw = ident32ToBytes raw ++ List.replicate n 0 := by
  obtain ⟨name, n, hbytes, hname⟩ := validateIdent32_iff.mp h
  have hkey : ident32ToBytes raw = name := by
    rw [ident32ToBytes, hbytes, stripTrailingZeros_append_replicate hname.zero_notMem]
  rw [hkey]
  exact ⟨hname, n, hbytes⟩

/-- A non-empty key without zero bytes that starts with a letter. -/
structure UserKey (key : Bytes) : Prop where
  zero : (0 : UInt8) ∉ key
  length : key.length ≤ 32
  head : ∃ b, key.head? = some b ∧ identLeading b = true

theorem userKey_of_validateIdent32 {name : B256} (h : validateIdent32 name = .ok ()) :
    UserKey (ident32ToBytes name) := by
  obtain ⟨hident, n, hbytes⟩ := isIdent_of_validateIdent32 h
  have hlen := b256Bytes_length name
  rw [hbytes, List.length_append] at hlen
  exact ⟨hident.zero_notMem, by omega, hident.leading⟩

theorem UserKey.ne_builtIn {key : Bytes} (h : UserKey key) {rest : Bytes} : key ≠ 0x24 :: rest := by
  rintro rfl
  obtain ⟨b, hb, hlead⟩ := h.head
  simp only [List.head?_cons, Option.some.injEq] at hb
  subst hb
  exact absurd hlead (by decide)

theorem wordsBytes_length (words : Words) : (wordsBytes words).length = 128 := by
  have hsum : ∀ l : List B256, (l.flatMap b256Bytes).length = 32 * l.length := by
    intro l
    induction l with
    | nil => rfl
    | cons b l ih =>
      rw [List.flatMap_cons, List.length_append, b256Bytes_length, ih, List.length_cons]
      omega
  rw [wordsBytes, hsum]
  simp

theorem packBytes324_length_le (words : Words) : (packBytes324 words).length ≤ 128 := by
  have h := stripTrailingZeros_length_le (wordsBytes words)
  rw [wordsBytes_length] at h
  exact h

theorem convertAttribute_ok {a : AbiAttribute} {x : Attribute} (h : convertAttribute a = .ok x) :
    x.key = ident32ToBytes a.name ∧ x.value.length ≤ 128 := by
  unfold convertAttribute at h
  dsimp only at h
  split at h
  · obtain ⟨_, -, h⟩ := Runs.ok_bind.mp h
    simp only [pure, Except.pure, Except.ok.injEq] at h
    subst h
    refine ⟨by simp only, ?_⟩
    simp only [b256Bytes_length]
    omega
  split at h
  · obtain ⟨_, -, h⟩ := Runs.ok_bind.mp h
    obtain ⟨_, -, h⟩ := Runs.ok_bind.mp h
    simp only [pure, Except.pure, Except.ok.injEq] at h
    subst h
    exact ⟨by simp only, packBytes324_length_le _⟩
  split at h
  · obtain ⟨_, -, h⟩ := Runs.ok_bind.mp h
    simp only [pure, Except.pure, Except.ok.injEq] at h
    subst h
    refine ⟨by simp only, ?_⟩
    simp only [b256Bytes_length]
    omega
  · cases h

/-- The converted attributes of a list with accepted names. -/
theorem convertAttributes_ok {attrs : List AbiAttribute} {as : List Attribute}
    (hnames : validateAttributeNames attrs = .ok ()) (hconv : convertAttributes attrs = .ok as) :
    as.length = attrs.length ∧ ∀ a ∈ as, UserKey a.key ∧ a.value.length ≤ 128 := by
  induction attrs generalizing as with
  | nil =>
    simp only [convertAttributes, List.mapM_nil, pure, Except.pure, Except.ok.injEq] at hconv
    subst hconv
    exact ⟨rfl, by simp⟩
  | cons a attrs ih =>
    unfold validateAttributeNames at hnames
    obtain ⟨_, hname, hnames⟩ := Runs.ok_bind.mp (List.forM_cons.symm.trans hnames)
    simp only [convertAttributes, List.mapM_cons] at hconv
    obtain ⟨x, hx, hconv⟩ := Runs.ok_bind.mp hconv
    obtain ⟨xs, hxs, hconv⟩ := Runs.ok_bind.mp hconv
    cases hconv
    obtain ⟨hlen, hall⟩ := ih hnames hxs
    obtain ⟨hkey, hvalue⟩ := convertAttribute_ok hx
    refine ⟨by simp [hlen], ?_⟩
    rw [List.forall_mem_cons]
    exact ⟨⟨hkey ▸ userKey_of_validateIdent32 hname, hvalue⟩, hall⟩

/-- The sizes and keys of a record that was written from calldata. -/
structure EntityRlp.WellFormed (e : EntityRlp) : Prop where
  fits : e.Fits
  keys : ∀ a ∈ e.attributes, UserKey a.key

theorem EntityRlp.WellFormed.of_converted {e : EntityRlp} {op : Operation}
    (hnames : validateAttributeNames op.attributes = .ok ())
    (hconv : convertAttributes op.attributes = .ok e.attributes) (hpayload : e.payload = op.payload)
    (hct : e.contentType.length ≤ 128) : e.WellFormed := by
  obtain ⟨hlen, hall⟩ := convertAttributes_ok hnames hconv
  refine ⟨⟨?_, hct, fun a ha => ⟨(hall a ha).1.length, (hall a ha).2⟩⟩, fun a ha => (hall a ha).1⟩
  have hpaid := op.paid
  rw [hpayload, hlen]
  exact hpaid

theorem EntityRlp.WellFormed.mono {e e' : EntityRlp} (h : e.WellFormed)
    (hp : e'.payload = e.payload) (hc : e'.contentType = e.contentType)
    (ha : e'.attributes = e.attributes) : e'.WellFormed :=
  ⟨h.fits.mono hp hc ha, by rw [ha]; exact h.keys⟩

end Arkiv
