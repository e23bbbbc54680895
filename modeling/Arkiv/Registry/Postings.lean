import Mathlib
import Arkiv.Lib.Run
import Arkiv.Registry.Scope

/-!
# What the index handlers change

Postings go in and out of pair accounts and index accounts, and nothing else
moves. On the pair bitmaps of a scope the effect of a whole list of annotations
is the one of a set: an ID is in afterwards when it was inserted, or was in and
was not removed.

## Main definitions

- `World.Frame` — only the code of the given accounts may differ
- `indexAccounts` — the accounts of a list of annotations
- `Edits` — removals, then insertions, as in every handler
-/

namespace Arkiv

open ByteString

/-- Two worlds that differ in the code of the accounts in `A` at most. Nonces never return to
    zero. -/
structure World.Frame (A : Set Address) (w w' : World) : Prop where
  code : ∀ a, a ∉ A → w'.code a = w.code a
  slot : ∀ s, w'.slot s = w.slot s
  logs : w'.logs = w.logs
  persists : ∀ a, w.nonce a ≠ 0 → w'.nonce a ≠ 0

theorem World.Frame.refl (A : Set Address) (w : World) : w.Frame A w :=
  ⟨fun _ _ => rfl, fun _ => rfl, rfl, fun _ h => h⟩

theorem World.Frame.trans {A : Set Address} {w w' w'' : World} (h : w.Frame A w')
    (h' : w'.Frame A w'') : w.Frame A w'' where
  code a ha := (h'.code a ha).trans (h.code a ha)
  slot s := (h'.slot s).trans (h.slot s)
  logs := h'.logs.trans h.logs
  persists a ha := h'.persists a (h.persists a ha)

theorem World.Frame.mono {A B : Set Address} {w w' : World} (h : w.Frame A w') (hAB : A ⊆ B) :
    w.Frame B w' :=
  ⟨fun a ha => h.code a fun hA => ha (hAB hA), h.slot, h.logs, h.persists⟩

theorem World.Frame.setCode {A : Set Address} {a : Address} (ha : a ∈ A) (w : World) (c : Bytes) :
    w.Frame A (w.setCode a c) where
  code b hb := World.code_setCode_of_ne _ _ _ _ fun heq => hb (heq ▸ ha)
  slot s := World.slot_setCode _ _ _ _
  logs := World.logs_setCode _ _ _
  persists b hb := by
    refine World.nonce_ne_zero_modify w a b (fun acc h => ?_) hb
    rw [World.ensureNonceAtLeastOne]
    split
    · next h0 => exact absurd h0 h
    · exact h

theorem orPanic_ok {α : Type} {x : Option α} {a : α} : orPanic x = .ok a ↔ x = some a := by
  cases x <;> simp [orPanic]

/-- Some annotation of the list has this key and this value. -/
def Carries (as : List Annotation) (k v : Bytes) : Prop := ∃ a ∈ as, a.key = k ∧ a.value = v

instance (as : List Annotation) (k v : Bytes) : Decidable (Carries as k v) :=
  inferInstanceAs (Decidable (∃ a ∈ as, a.key = k ∧ a.value = v))

@[simp] theorem carries_nil {k v : Bytes} : ¬Carries [] k v := by simp [Carries]

/-- Some annotation of the list has the pair account of this key and this value. -/
def SharesPair (as : List Annotation) (k v : Bytes) : Prop :=
  ∃ a ∈ as, pairPreimage a.key a.value = pairPreimage k v

instance (as : List Annotation) (k v : Bytes) : Decidable (SharesPair as k v) :=
  inferInstanceAs (Decidable (∃ a ∈ as, pairPreimage a.key a.value = pairPreimage k v))

@[simp] theorem sharesPair_nil {k v : Bytes} : ¬SharesPair [] k v := by simp [SharesPair]

theorem sharesPair_cons {a : Annotation} {as : List Annotation} {k v : Bytes} :
    SharesPair (a :: as) k v ↔
      pairPreimage a.key a.value = pairPreimage k v ∨ SharesPair as k v := by
  simp [SharesPair]

/-- Without zero bytes in the keys a pair account has one key and one value. -/
theorem sharesPair_iff_carries {as : List Annotation} {k v : Bytes} (hk : (0 : UInt8) ∉ k)
    (has : ∀ a ∈ as, (0 : UInt8) ∉ a.key) : SharesPair as k v ↔ Carries as k v := by
  constructor
  · rintro ⟨a, ha, heq⟩
    exact ⟨a, ha, pairPreimage_inj (has a ha) hk heq⟩
  · rintro ⟨a, ha, rfl, rfl⟩
    exact ⟨a, ha, rfl⟩

variable [Keccak] [RoaringFormat]

/-- The accounts of one annotation. -/
def pairAccounts (k v : Bytes) : Set Address := {pairAddress k v, indexAddress k}

/-- The accounts of a list of annotations. -/
def indexAccounts (annotations : List Annotation) : Set Address :=
  {a | ∃ x ∈ annotations, a ∈ pairAccounts x.key x.value}

omit [RoaringFormat] in
theorem indexAccounts_mono {as bs : List Annotation} (h : ∀ a ∈ as, a ∈ bs) :
    indexAccounts as ⊆ indexAccounts bs := by
  rintro a ⟨x, hx, ha⟩
  exact ⟨x, h x hx, ha⟩

/-- What an insertion does: the pair account gets the bitmap with the ID, the index account may
    change as well. -/
theorem insertIntoIndexes_cases {w w' : World} {k v : Bytes} {i : UInt64} {t : Bool}
    (h : insertIntoIndexes w k v i t = .ok w') :
    ∃ b, readPairBitmap w k v = .ok b ∧
      ((w' = w.setCode (pairAddress k v) (b.insert i).toBytes ∧ (t && b.isEmpty) = false) ∨
        ∃ tree tree' new bytes, (t && b.isEmpty) = true ∧
          readIndexTree (w.setCode (pairAddress k v) (b.insert i).toBytes) k = .ok tree ∧
          tree.insert v = some (tree', new) ∧ tree'.toBytes = some bytes ∧
          w' = (w.setCode (pairAddress k v) (b.insert i).toBytes).setCode (indexAddress k) bytes) := by
  simp only [insertIntoIndexes] at h
  obtain ⟨b, hb, h⟩ := Runs.ok_bind.mp h
  refine ⟨b, hb, ?_⟩
  by_cases ht : (t && b.isEmpty) = true
  · rw [if_pos ht] at h
    obtain ⟨tree, htree, h⟩ := Runs.ok_bind.mp h
    obtain ⟨⟨tree', new⟩, hins, h⟩ := Runs.ok_bind.mp h
    obtain ⟨bytes, hbytes, h⟩ := Runs.ok_bind.mp h
    cases h
    exact .inr ⟨tree, tree', new, bytes, ht, htree, orPanic_ok.mp hins, orPanic_ok.mp hbytes, rfl⟩
  · rw [if_neg ht] at h
    cases h
    exact .inl ⟨rfl, by simpa using ht⟩

/-- What a removal does; an empty bitmap is left alone. -/
theorem removeFromIndexes_cases {w w' : World} {k v : Bytes} {i : UInt64} {t : Bool}
    (h : removeFromIndexes w k v i t = .ok w') :
    ∃ b, readPairBitmap w k v = .ok b ∧
      ((b.isEmpty = true ∧ w' = w) ∨
        (b.isEmpty = false ∧ (t && (b.remove i).isEmpty) = false ∧
          w' = w.setCode (pairAddress k v) (b.remove i).toBytes) ∨
        ∃ tree tree' gone, b.isEmpty = false ∧ (t && (b.remove i).isEmpty) = true ∧
          readIndexTree (w.setCode (pairAddress k v) (b.remove i).toBytes) k = .ok tree ∧
          tree.remove v = some (tree', gone) ∧
          ∃ bytes, (tree'.isEmpty = true ∧ bytes = [] ∨
              tree'.isEmpty = false ∧ tree'.toBytes = some bytes) ∧
            w' = (w.setCode (pairAddress k v) (b.remove i).toBytes).setCode (indexAddress k)
              bytes) := by
  simp only [removeFromIndexes] at h
  obtain ⟨b, hb, h⟩ := Runs.ok_bind.mp h
  refine ⟨b, hb, ?_⟩
  by_cases he : b.isEmpty = true
  · rw [if_pos he] at h
    cases h
    exact .inl ⟨he, rfl⟩
  rw [if_neg he] at h
  by_cases ht : (t && (b.remove i).isEmpty) = true
  · rw [if_pos ht] at h
    obtain ⟨tree, htree, h⟩ := Runs.ok_bind.mp h
    obtain ⟨⟨tree', gone⟩, hrem, h⟩ := Runs.ok_bind.mp h
    refine .inr (.inr ⟨tree, tree', gone, by simpa using he, ht, htree, orPanic_ok.mp hrem, ?_⟩)
    by_cases hte : tree'.isEmpty = true
    · simp only [hte, if_true] at h
      cases h
      exact ⟨[], .inl ⟨hte, rfl⟩, rfl⟩
    · simp only [hte] at h
      obtain ⟨bytes, hbytes, h⟩ := Runs.ok_bind.mp h
      cases h
      exact ⟨bytes, .inr ⟨by simpa using hte, orPanic_ok.mp hbytes⟩, rfl⟩
  · rw [if_neg ht] at h
    cases h
    exact .inr (.inl ⟨by simpa using he, by simpa using ht, rfl⟩)

theorem insertIntoIndexes_frame {w w' : World} {k v : Bytes} {i : UInt64} {t : Bool}
    (h : insertIntoIndexes w k v i t = .ok w') : w.Frame (pairAccounts k v) w' := by
  obtain ⟨b, -, ⟨rfl, -⟩ | ⟨tree, tree', new, bytes, -, -, -, -, rfl⟩⟩ := insertIntoIndexes_cases h
  · exact World.Frame.setCode (by simp [pairAccounts]) _ _
  · exact (World.Frame.setCode (by simp [pairAccounts]) _ _).trans
      (World.Frame.setCode (by simp [pairAccounts]) _ _)

theorem removeFromIndexes_frame {w w' : World} {k v : Bytes} {i : UInt64} {t : Bool}
    (h : removeFromIndexes w k v i t = .ok w') : w.Frame (pairAccounts k v) w' := by
  obtain ⟨b, -, ⟨-, rfl⟩ | ⟨-, -, rfl⟩ | ⟨tree, tree', gone, -, -, -, -, bytes, -, rfl⟩⟩ :=
    removeFromIndexes_cases h
  · exact World.Frame.refl _ _
  · exact World.Frame.setCode (by simp [pairAccounts]) _ _
  · exact (World.Frame.setCode (by simp [pairAccounts]) _ _).trans
      (World.Frame.setCode (by simp [pairAccounts]) _ _)

theorem insertAnnotations_frame {w w' : World} {i : UInt64} {as : List Annotation}
    (h : insertAnnotations w i as = .ok w') : w.Frame (indexAccounts as) w' :=
  Runs.foldlM_preserves (P := fun u => w.Frame (indexAccounts as) u)
    (fun _ _ a ha hf hstep =>
      hf.trans ((insertIntoIndexes_frame hstep).mono fun _ hx => ⟨a, ha, hx⟩))
    (World.Frame.refl _ _) h

theorem removeAnnotations_frame {w w' : World} {i : UInt64} {as : List Annotation}
    (h : removeAnnotations w i as = .ok w') : w.Frame (indexAccounts as) w' :=
  Runs.foldlM_preserves (P := fun u => w.Frame (indexAccounts as) u)
    (fun _ _ a ha hf hstep =>
      hf.trans ((removeFromIndexes_frame hstep).mono fun _ hx => ⟨a, ha, hx⟩))
    (World.Frame.refl _ _) h

/-- Removals, then insertions, of the postings of one ID. -/
def Edits (w w' : World) (i : UInt64) (rem ins : List Annotation) : Prop :=
  ∃ m, removeAnnotations w i rem = .ok m ∧ insertAnnotations m i ins = .ok w'

theorem Edits.frame {w w' : World} {i : UInt64} {rem ins : List Annotation}
    (h : Edits w w' i rem ins) : w.Frame (indexAccounts (rem ++ ins)) w' := by
  obtain ⟨m, hr, hi⟩ := h
  refine ((removeAnnotations_frame hr).mono ?_).trans ((insertAnnotations_frame hi).mono ?_)
  · exact indexAccounts_mono fun a ha => List.mem_append_left _ ha
  · exact indexAccounts_mono fun a ha => List.mem_append_right _ ha

theorem readPairBitmap_congr {w w' : World} {k v : Bytes}
    (h : w'.code (pairAddress k v) = w.code (pairAddress k v)) :
    readPairBitmap w' k v = readPairBitmap w k v := by
  simp only [readPairBitmap, h]

@[simp] theorem readPairBitmap_setCode_self (w : World) (k v : Bytes) (b : Bitmap) :
    readPairBitmap (w.setCode (pairAddress k v) b.toBytes) k v = .ok b := by
  simp [readPairBitmap]

/-- The bitmap belongs to the pair account. -/
theorem readPairBitmap_of_pair {k k' v v' : Bytes} (h : pairPreimage k v = pairPreimage k' v')
    (w : World) : readPairBitmap w k v = readPairBitmap w k' v' := by
  have haddr : pairAddress k v = pairAddress k' v' := congrArg derivedAddress h
  simp only [readPairBitmap, haddr]

variable {S : Scope} {k v : Bytes}

omit [RoaringFormat] in
/-- No index account of the scope is a pair account of the scope. -/
theorem Scope.pairAddress_ne_of_mem {k' : Bytes} (h : pairPreimage k v ∈ S.accounts)
    (h' : indexPreimage k' ∈ S.accounts) : pairAddress k v ≠ indexAddress k' := fun heq =>
  pairPreimage_ne_indexPreimage k v k' (S.accounts_inj h h' heq)

omit [RoaringFormat] in
/-- A pair account keeps its bitmap when an annotation of another pair is edited. -/
theorem Scope.notMem_pairAccounts {k' v' : Bytes} (h : pairPreimage k v ∈ S.accounts)
    (hp : pairPreimage k' v' ∈ S.accounts) (hi : indexPreimage k' ∈ S.accounts)
    (hne : pairPreimage k' v' ≠ pairPreimage k v) : pairAddress k v ∉ pairAccounts k' v' := by
  rintro (heq | heq)
  · exact hne (S.accounts_inj h hp heq).symm
  · exact Scope.pairAddress_ne_of_mem h hi heq

theorem readPairBitmap_insert_self (hne : pairAddress k v ≠ indexAddress k) {w w' : World}
    {i : UInt64} {t : Bool} (h : insertIntoIndexes w k v i t = .ok w') :
    ∃ b, readPairBitmap w k v = .ok b ∧ readPairBitmap w' k v = .ok (b.insert i) := by
  obtain ⟨b, hb, ⟨rfl, -⟩ | ⟨tree, tree', new, bytes, -, -, -, -, rfl⟩⟩ := insertIntoIndexes_cases h
  · exact ⟨b, hb, by simp⟩
  · refine ⟨b, hb, ?_⟩
    rw [readPairBitmap_congr (World.code_setCode_of_ne _ _ _ _ hne)]
    simp

theorem readPairBitmap_remove_self (hne : pairAddress k v ≠ indexAddress k) {w w' : World}
    {i : UInt64} {t : Bool} (h : removeFromIndexes w k v i t = .ok w') :
    ∃ b, readPairBitmap w k v = .ok b ∧ readPairBitmap w' k v = .ok (b.remove i) := by
  obtain ⟨b, hb, ⟨he, rfl⟩ | ⟨-, -, rfl⟩ | ⟨tree, tree', gone, -, -, -, -, bytes, -, rfl⟩⟩ :=
    removeFromIndexes_cases h
  · refine ⟨b, hb, ?_⟩
    have hrem : b.remove i = b := by
      ext j
      simp [Bitmap.isEmpty_iff.mp he]
    rw [hrem]
    exact hb
  · exact ⟨b, hb, by simp⟩
  · refine ⟨b, hb, ?_⟩
    rw [readPairBitmap_congr (World.code_setCode_of_ne _ _ _ _ hne)]
    simp

/-- The accounts of a list of annotations are in the scope. -/
def Scope.HasAccounts (S : Scope) (as : List Annotation) : Prop :=
  ∀ a ∈ as, pairPreimage a.key a.value ∈ S.accounts ∧ indexPreimage a.key ∈ S.accounts

omit [RoaringFormat] in
/-- The accounts of annotations are no entity accounts. -/
theorem Scope.EntityAt.notMem_indexAccounts {chainId : UInt64} {a : Address}
    (ha : S.EntityAt chainId a) {as : List Annotation} (has : S.HasAccounts as) :
    a ∉ indexAccounts as := by
  rintro ⟨x, hx, heq | heq⟩
  · exact ha.ne_pairAddress (has x hx).1 heq
  · exact ha.ne_indexAddress (has x hx).2 heq

/-- The annotations of a list are covered. -/
def Scope.CoversAll (S : Scope) (as : List Annotation) : Prop := ∀ a ∈ as, S.Covers a.key a.value

omit [RoaringFormat] in
theorem Scope.HasAccounts.coversAll {as : List Annotation} (h : S.HasAccounts as)
    (hzero : ∀ a ∈ as, (0 : UInt8) ∉ a.key) : S.CoversAll as := fun a ha =>
  ⟨hzero a ha, (h a ha).1, (h a ha).2⟩

omit [RoaringFormat] in
theorem Scope.CoversAll.hasAccounts {as : List Annotation} (h : S.CoversAll as) : S.HasAccounts as :=
  fun a ha => ⟨(h a ha).pair, (h a ha).index⟩

/-- **Insertion of a list**: the ID is in the bitmaps of the list, all else stays. -/
theorem insertAnnotations_pair (hk : pairPreimage k v ∈ S.accounts) {w w' : World} {i : UInt64}
    {as : List Annotation} (has : S.HasAccounts as) (h : insertAnnotations w i as = .ok w')
    {b : Bitmap} (hb : readPairBitmap w k v = .ok b) :
    ∃ b', readPairBitmap w' k v = .ok b' ∧ ∀ j, j ∈ b' ↔ j ∈ b ∨ j = i ∧ SharesPair as k v := by
  induction as generalizing w b with
  | nil =>
    simp only [insertAnnotations, List.foldlM_nil, pure, Except.pure, Except.ok.injEq] at h
    subst h
    exact ⟨b, hb, by simp⟩
  | cons a as ih =>
    obtain ⟨⟨hpair, hindex⟩, has'⟩ := List.forall_mem_cons.mp has
    obtain ⟨u, hu, hrest⟩ := Runs.foldlM_cons_ok.mp h
    by_cases heq : pairPreimage a.key a.value = pairPreimage k v
    · obtain ⟨b₀, hb₀, hbu⟩ :=
        readPairBitmap_insert_self (Scope.pairAddress_ne_of_mem hpair hindex) hu
      rw [readPairBitmap_of_pair heq] at hb₀ hbu
      rw [hb] at hb₀
      cases hb₀
      obtain ⟨b', hb', hmem⟩ := ih has' hrest hbu
      refine ⟨b', hb', fun j => ?_⟩
      rw [hmem, Bitmap.mem_insert, sharesPair_cons]
      tauto
    · have hcode := (insertIntoIndexes_frame hu).code _
        (Scope.notMem_pairAccounts hk hpair hindex heq)
      obtain ⟨b', hb', hmem⟩ := ih has' hrest ((readPairBitmap_congr hcode).trans hb)
      refine ⟨b', hb', fun j => ?_⟩
      rw [hmem, sharesPair_cons]
      tauto

/-- **Removal of a list**: the ID leaves the bitmaps of the list, all else stays. -/
theorem removeAnnotations_pair (hk : pairPreimage k v ∈ S.accounts) {w w' : World} {i : UInt64}
    {as : List Annotation} (has : S.HasAccounts as) (h : removeAnnotations w i as = .ok w')
    {b : Bitmap} (hb : readPairBitmap w k v = .ok b) :
    ∃ b', readPairBitmap w' k v = .ok b' ∧ ∀ j, j ∈ b' ↔ j ∈ b ∧ ¬(j = i ∧ SharesPair as k v) := by
  induction as generalizing w b with
  | nil =>
    simp only [removeAnnotations, List.foldlM_nil, pure, Except.pure, Except.ok.injEq] at h
    subst h
    exact ⟨b, hb, by simp⟩
  | cons a as ih =>
    obtain ⟨⟨hpair, hindex⟩, has'⟩ := List.forall_mem_cons.mp has
    obtain ⟨u, hu, hrest⟩ := Runs.foldlM_cons_ok.mp h
    by_cases heq : pairPreimage a.key a.value = pairPreimage k v
    · obtain ⟨b₀, hb₀, hbu⟩ :=
        readPairBitmap_remove_self (Scope.pairAddress_ne_of_mem hpair hindex) hu
      rw [readPairBitmap_of_pair heq] at hb₀ hbu
      rw [hb] at hb₀
      cases hb₀
      obtain ⟨b', hb', hmem⟩ := ih has' hrest hbu
      refine ⟨b', hb', fun j => ?_⟩
      rw [hmem, Bitmap.mem_remove, sharesPair_cons]
      tauto
    · have hcode := (removeFromIndexes_frame hu).code _
        (Scope.notMem_pairAccounts hk hpair hindex heq)
      obtain ⟨b', hb', hmem⟩ := ih has' hrest ((readPairBitmap_congr hcode).trans hb)
      refine ⟨b', hb', fun j => ?_⟩
      rw [hmem, sharesPair_cons]
      tauto

/-- **Edits on the pair bitmaps**: the ID is posted when it was inserted, or was posted and not
    removed; other IDs stay. -/
theorem Edits.pair (hk : pairPreimage k v ∈ S.accounts) {w w' : World} {i : UInt64}
    {rem ins : List Annotation} (hrem : S.HasAccounts rem) (hins : S.HasAccounts ins)
    (h : Edits w w' i rem ins) {b : Bitmap} (hb : readPairBitmap w k v = .ok b) :
    ∃ b', readPairBitmap w' k v = .ok b' ∧
      ∀ j, j ∈ b' ↔
        if j = i then SharesPair ins k v ∨ j ∈ b ∧ ¬SharesPair rem k v else j ∈ b := by
  obtain ⟨m, hr, hi⟩ := h
  obtain ⟨b₁, hb₁, h₁⟩ := removeAnnotations_pair hk hrem hr hb
  obtain ⟨b₂, hb₂, h₂⟩ := insertAnnotations_pair hk hins hi hb₁
  refine ⟨b₂, hb₂, fun j => ?_⟩
  rw [h₂, h₁]
  split <;> tauto

/-- Edits of covered annotations, read by key and value. -/
theorem Edits.postings (hS : S.Covers k v) {w w' : World} {i : UInt64}
    {rem ins : List Annotation} (hrem : S.CoversAll rem) (hins : S.CoversAll ins)
    (h : Edits w w' i rem ins) {b : Bitmap} (hb : readPairBitmap w k v = .ok b) :
    ∃ b', readPairBitmap w' k v = .ok b' ∧
      ∀ j, j ∈ b' ↔ if j = i then Carries ins k v ∨ j ∈ b ∧ ¬Carries rem k v else j ∈ b := by
  obtain ⟨b', hb', hmem⟩ := h.pair hS.pair hrem.hasAccounts hins.hasAccounts hb
  refine ⟨b', hb', fun j => ?_⟩
  rw [hmem, sharesPair_iff_carries hS.key fun a ha => (hins a ha).key,
    sharesPair_iff_carries hS.key fun a ha => (hrem a ha).key]

end Arkiv
