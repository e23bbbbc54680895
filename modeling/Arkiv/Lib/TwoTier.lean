import Mathlib

/-!
# Inverted indexes in two tiers

The first tier files records under a key and a value; the second lists, key by
key, the values under which something is filed. Only some entries are listed.
An index that is edited entry by entry is the index of the changed records, as
long as the edits follow the difference between the records and no value is
filed both as listed and as not listed.

## Main definitions

- `Schema` — where an entry is filed, and whether its value is listed
- `Index.insert`, `Index.remove`, `Index.edit` — one entry in, one entry out, and a list of both
- `Index.of` — the index of some records
- `Moves` — edits that follow the change of one record
- `Moves.post_edit`, `Moves.vals_edit` — the edited index is the one of the changed records
-/

namespace TwoTier

variable {A K V I : Type*}

/-- How entries are filed. -/
structure Schema (A K V : Type*) where
  key : A → K
  value : A → V
  listed : A → Prop

/-- The entry is filed under the key and the value. -/
def Schema.At (F : Schema A K V) (a : A) (k : K) (v : V) : Prop := F.key a = k ∧ F.value a = v

/-- What is filed under a key and a value, and the values that are listed under a key. -/
@[ext] structure Index (K V I : Type*) where
  post : K → V → Set I
  vals : K → Set V

namespace Index

variable (F : Schema A K V)

/-- A value is listed when nothing was filed under it before. -/
def insert (i : I) (x : Index K V I) (a : A) : Index K V I where
  post k v := {j | j ∈ x.post k v ∨ j = i ∧ F.At a k v}
  vals k := {v | v ∈ x.vals k ∨ F.At a k v ∧ F.listed a ∧ x.post k v = ∅}

/-- A value is taken off the list when nothing is filed under it any more. -/
def remove (i : I) (x : Index K V I) (a : A) : Index K V I where
  post k v := {j | j ∈ x.post k v ∧ ¬(j = i ∧ F.At a k v)}
  vals k := {v | v ∈ x.vals k ∧
    ¬(F.At a k v ∧ F.listed a ∧ (x.post k v).Nonempty ∧ x.post k v ⊆ {i})}

/-- Removals, then insertions. -/
def edit (x : Index K V I) (i : I) (rem ins : List A) : Index K V I :=
  ins.foldl (insert F i) (rem.foldl (remove F i) x)

/-- The index of records, each with its entries. -/
def of (entries : I → Set A) : Index K V I where
  post k v := {i | ∃ a ∈ entries i, F.At a k v}
  vals k := {v | ∃ i, ∃ a ∈ entries i, F.At a k v ∧ F.listed a}

end Index

section Postings

variable {F : Schema A K V} {x : Index K V I} {i j : I} {rem ins as : List A} {k : K} {v : V}

theorem mem_post_remove {a : A} : j ∈ (Index.remove F i x a).post k v ↔
    j ∈ x.post k v ∧ ¬(j = i ∧ F.At a k v) := Iff.rfl

theorem mem_post_insert {a : A} : j ∈ (Index.insert F i x a).post k v ↔
    j ∈ x.post k v ∨ j = i ∧ F.At a k v := Iff.rfl

theorem mem_post_removeAll : j ∈ (rem.foldl (Index.remove F i) x).post k v ↔
    j ∈ x.post k v ∧ ¬(j = i ∧ ∃ a ∈ rem, F.At a k v) := by
  induction rem generalizing x with
  | nil => simp
  | cons a rem ih =>
    rw [List.foldl_cons, ih, mem_post_remove, List.exists_mem_cons_iff, and_or_left, not_or,
      and_assoc]

theorem mem_post_insertAll : j ∈ (ins.foldl (Index.insert F i) x).post k v ↔
    j ∈ x.post k v ∨ j = i ∧ ∃ a ∈ ins, F.At a k v := by
  induction ins generalizing x with
  | nil => simp
  | cons a ins ih =>
    rw [List.foldl_cons, ih, mem_post_insert, List.exists_mem_cons_iff, and_or_left, or_assoc]

theorem mem_post_edit [DecidableEq I] : j ∈ (x.edit F i rem ins).post k v ↔
    if j = i then (∃ a ∈ ins, F.At a k v) ∨ j ∈ x.post k v ∧ ¬∃ a ∈ rem, F.At a k v
    else j ∈ x.post k v := by
  rw [Index.edit, mem_post_insertAll, mem_post_removeAll]
  by_cases hj : j = i
  · simp only [hj, true_and, if_true]
    exact or_comm
  · simp only [hj, false_and, not_false_eq_true, and_true, or_false, if_false]

end Postings

section Values

variable {F : Schema A K V} {x : Index K V I} {i : I} {a : A} {rem ins : List A} {k : K}
  {T T' : V → Prop}

/-- Under the key the values are listed that have the property and under which something is
    filed. -/
def Tiered (k : K) (T : V → Prop) (x : Index K V I) : Prop :=
  ∀ v, v ∈ x.vals k ↔ (x.post k v).Nonempty ∧ T v

theorem Tiered.congr (h : Tiered k T x) (hT : ∀ v, (x.post k v).Nonempty → (T v ↔ T' v)) :
    Tiered k T' x := fun v =>
  (h v).trans (and_congr_right (hT v))

/-- A removal keeps the list right when it is of a listed entry, or of a value without the
    property. -/
theorem Tiered.remove (h : Tiered k T x) (ha : F.key a = k → F.listed a ∨ ¬T (F.value a)) :
    Tiered k T (Index.remove F i x a) := by
  intro v
  have hv := h v
  by_cases hat : F.At a k v
  · obtain ⟨rfl, rfl⟩ := hat
    have hpost : ((Index.remove F i x a).post (F.key a) (F.value a)).Nonempty ↔
        ¬x.post (F.key a) (F.value a) ⊆ {i} := by
      rw [Set.not_subset]
      exact exists_congr fun j => by simp [Index.remove, Schema.At]
    have hsub : ¬(x.post (F.key a) (F.value a)).Nonempty → x.post (F.key a) (F.value a) ⊆ {i} := by
      intro hno
      rw [Set.not_nonempty_iff_eq_empty.mp hno]
      exact Set.empty_subset _
    have hvals : F.value a ∈ (Index.remove F i x a).vals (F.key a) ↔
        F.value a ∈ x.vals (F.key a) ∧ ¬(F.listed a ∧ (x.post (F.key a) (F.value a)).Nonempty ∧
          x.post (F.key a) (F.value a) ⊆ {i}) := by
      simp [Index.remove, Schema.At]
    rw [hvals, hpost, hv]
    rcases ha rfl with hlisted | hno <;> tauto
  · have hpost : (Index.remove F i x a).post k v = x.post k v := by
      ext j
      simp [Index.remove, hat]
    have hvals : v ∈ (Index.remove F i x a).vals k ↔ v ∈ x.vals k := by
      simp [Index.remove, hat]
    rw [hvals, hpost, hv]

/-- An insertion keeps the list right when it is listed exactly if its value has the property. -/
theorem Tiered.insert (h : Tiered k T x) (ha : F.key a = k → (F.listed a ↔ T (F.value a))) :
    Tiered k T (Index.insert F i x a) := by
  intro v
  have hv := h v
  by_cases hat : F.At a k v
  · obtain ⟨rfl, rfl⟩ := hat
    have hpost : ((Index.insert F i x a).post (F.key a) (F.value a)).Nonempty :=
      ⟨i, .inr ⟨rfl, rfl, rfl⟩⟩
    have hvals : F.value a ∈ (Index.insert F i x a).vals (F.key a) ↔
        F.value a ∈ x.vals (F.key a) ∨ F.listed a ∧ x.post (F.key a) (F.value a) = ∅ := by
      simp [Index.insert, Schema.At]
    rw [hvals, hv, ha rfl, ← Set.not_nonempty_iff_eq_empty]
    tauto
  · have hpost : (Index.insert F i x a).post k v = x.post k v := by
      ext j
      simp [Index.insert, hat]
    have hvals : v ∈ (Index.insert F i x a).vals k ↔ v ∈ x.vals k := by
      simp [Index.insert, hat]
    rw [hvals, hpost, hv]

theorem Tiered.removeAll (h : Tiered k T x)
    (hrem : ∀ a ∈ rem, F.key a = k → F.listed a ∨ ¬T (F.value a)) :
    Tiered k T (rem.foldl (Index.remove F i) x) := by
  induction rem generalizing x with
  | nil => exact h
  | cons a rem ih =>
    obtain ⟨ha, hrem⟩ := List.forall_mem_cons.mp hrem
    exact ih (h.remove ha) hrem

theorem Tiered.insertAll (h : Tiered k T x)
    (hins : ∀ a ∈ ins, F.key a = k → (F.listed a ↔ T (F.value a))) :
    Tiered k T (ins.foldl (Index.insert F i) x) := by
  induction ins generalizing x with
  | nil => exact h
  | cons a ins ih =>
    obtain ⟨ha, hins⟩ := List.forall_mem_cons.mp hins
    exact ih (h.insert ha) hins

end Values

section Records

variable {F : Schema A K V} {entries entries' : I → Set A} {i : I} {rem ins : List A} {k : K}

/-- Under the key no value is filed both as listed and as not listed. -/
def OneTier (F : Schema A K V) (entries : I → Set A) (k : K) : Prop :=
  ∀ i j, ∀ a ∈ entries i, ∀ b ∈ entries j, F.key a = k → F.key b = k → F.value a = F.value b →
    (F.listed a ↔ F.listed b)

/-- Edits of the record `i` that follow its change, as far as the key is concerned: what goes was
    there, what comes is there now, and what is not edited stays. -/
structure Moves (F : Schema A K V) (entries entries' : I → Set A) (i : I) (rem ins : List A)
    (k : K) : Prop where
  other : ∀ j, j ≠ i → entries' j = entries j
  rem_old : ∀ a ∈ rem, F.key a = k → a ∈ entries i
  ins_new : ∀ a ∈ ins, F.key a = k → a ∈ entries' i
  kept : ∀ a ∈ entries i, F.key a = k → a ∉ rem → a ∈ entries' i
  born : ∀ a ∈ entries' i, F.key a = k → a ∉ entries i → a ∈ ins
  reposts : ∀ a ∈ rem, F.key a = k → ∀ b ∈ entries' i, F.At b k (F.value a) →
    ∃ c ∈ ins, F.At c k (F.value a)

/-- **The edited postings** are those of the changed records. -/
theorem Moves.post_edit (h : Moves F entries entries' i rem ins k) (v : V) :
    ((Index.of F entries).edit F i rem ins).post k v = (Index.of F entries').post k v := by
  classical
  ext j
  rw [mem_post_edit]
  by_cases hj : j = i
  · subst hj
    rw [if_pos rfl]
    constructor
    · rintro (⟨a, ha, hat⟩ | ⟨⟨a, ha, hat⟩, hno⟩)
      · exact ⟨a, h.ins_new a ha hat.1, hat⟩
      · exact ⟨a, h.kept a ha hat.1 fun hrem => hno ⟨a, hrem, hat⟩, hat⟩
    · rintro ⟨a, ha, rfl, rfl⟩
      by_cases hins : ∃ c ∈ ins, F.At c (F.key a) (F.value a)
      · exact .inl hins
      · have hold : a ∈ entries j := by
          by_contra hno
          exact hins ⟨a, h.born a ha rfl hno, rfl, rfl⟩
        refine .inr ⟨⟨a, hold, rfl, rfl⟩, ?_⟩
        rintro ⟨b, hb, hkey, hvalue⟩
        have hpost := h.reposts b hb hkey a ha ⟨rfl, hvalue.symm⟩
        rw [hvalue] at hpost
        exact hins hpost
  · rw [if_neg hj]
    show (∃ a ∈ entries j, F.At a k v) ↔ ∃ a ∈ entries' j, F.At a k v
    rw [h.other j hj]

/-- What is still filed between the removals and the insertions is filed before and after. -/
theorem Moves.exists_kept (h : Moves F entries entries' i rem ins k) {v : V}
    (hmid : ((rem.foldl (Index.remove F i) (Index.of F entries)).post k v).Nonempty) :
    ∃ j a, a ∈ entries j ∧ a ∈ entries' j ∧ F.At a k v := by
  obtain ⟨j, hj⟩ := hmid
  obtain ⟨⟨a, ha, hat⟩, hno⟩ := mem_post_removeAll.mp hj
  refine ⟨j, a, ha, ?_, hat⟩
  by_cases hji : j = i
  · subst hji
    exact h.kept a ha hat.1 fun hrem => hno ⟨rfl, a, hrem, hat⟩
  · rw [h.other j hji]
    exact ha

/-- The values that an entry of some record lists. -/
theorem mem_vals_iff {v : V} (htier : OneTier F entries k) {j : I} {a : A} (ha : a ∈ entries j)
    (hat : F.At a k v) : v ∈ (Index.of F entries).vals k ↔ F.listed a := by
  constructor
  · rintro ⟨l, b, hb, hbat, hlisted⟩
    exact (htier l j b hb a ha hbat.1 hat.1 (hbat.2.trans hat.2.symm)).mp hlisted
  · intro hlisted
    exact ⟨j, a, ha, hat, hlisted⟩

theorem tiered_of (F : Schema A K V) (entries : I → Set A) (k : K) :
    Tiered k (· ∈ (Index.of F entries).vals k) (Index.of F entries) := by
  intro v
  refine (and_iff_right_of_imp ?_).symm
  rintro ⟨i, a, ha, hat, -⟩
  exact ⟨i, a, ha, hat⟩

/-- **The edited lists** are those of the changed records, where each value has one tier before
    and after. -/
theorem Moves.vals_edit (h : Moves F entries entries' i rem ins k) (htier : OneTier F entries k)
    (htier' : OneTier F entries' k) :
    ((Index.of F entries).edit F i rem ins).vals k = (Index.of F entries').vals k := by
  have hremoved : Tiered k (· ∈ (Index.of F entries).vals k)
      (rem.foldl (Index.remove F i) (Index.of F entries)) :=
    (tiered_of F entries k).removeAll fun a ha hkey => by
      rw [mem_vals_iff htier (h.rem_old a ha hkey) ⟨hkey, rfl⟩]
      exact em _
  have hmid : Tiered k (· ∈ (Index.of F entries').vals k)
      (rem.foldl (Index.remove F i) (Index.of F entries)) :=
    hremoved.congr fun v hv => by
      obtain ⟨j, a, ha, ha', hat⟩ := h.exists_kept hv
      rw [mem_vals_iff htier ha hat, mem_vals_iff htier' ha' hat]
  have hall : Tiered k (· ∈ (Index.of F entries').vals k)
      ((Index.of F entries).edit F i rem ins) :=
    hmid.insertAll fun a ha hkey => (mem_vals_iff htier' (h.ins_new a ha hkey) ⟨hkey, rfl⟩).symm
  ext v
  have hv := hall v
  rw [h.post_edit] at hv
  rw [hv]
  exact (tiered_of F entries' k v).symm

end Records

end TwoTier
