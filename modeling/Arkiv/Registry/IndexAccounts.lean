import Mathlib
import Arkiv.IndexTree.Stored
import Arkiv.Registry.ById

/-!
# The accounts behind the index

Pair accounts hold the postings of an index in two tiers, and index accounts
hold its lists of values, each as the bytes of a tree. The handlers edit the
accounts as the index is edited, as long as no call on a tree loses a slot.

## Main definitions

- `TreeCall`, `editTreeCalls` — the calls that edits make on trees
- `PairsHold`, `TreesHold` — the accounts hold an index
- `PairsHold.edits`, `TreesHold.edits` — edits of the accounts are edits of the index
-/

namespace Arkiv

open ByteString

variable [Keccak] [RoaringFormat]

/-- A call on the tree of a key, with the tree that it is made on. -/
structure TreeCall where
  key : Bytes
  tree : IndexTree
  op : SetOp

/-- The insertion of the first ID of a pair calls the tree. -/
def insertTreeCall (w : World) (a : Annotation) : List TreeCall :=
  match readPairBitmap w a.key a.value, readIndexTree w a.key with
  | .ok bitmap, .ok tree =>
    if a.tier2 && bitmap.isEmpty then [⟨a.key, tree, .insert a.value⟩] else []
  | _, _ => []

/-- The removal of the last ID of a pair calls the tree. -/
def removeTreeCall (w : World) (i : UInt64) (a : Annotation) : List TreeCall :=
  match readPairBitmap w a.key a.value, readIndexTree w a.key with
  | .ok bitmap, .ok tree =>
    if !bitmap.isEmpty && (a.tier2 && (bitmap.remove i).isEmpty) then
      [⟨a.key, tree, .remove a.value⟩]
    else []
  | _, _ => []

/-- The calls of a list of insertions, each on the world that the ones before it leave. -/
def insertTreeCalls (i : UInt64) : World → List Annotation → List TreeCall
  | _, [] => []
  | w, a :: as => insertTreeCall w a ++
    match insertIntoIndexes w a.key a.value i a.tier2 with
    | .ok w' => insertTreeCalls i w' as
    | .error _ => []

def removeTreeCalls (i : UInt64) : World → List Annotation → List TreeCall
  | _, [] => []
  | w, a :: as => removeTreeCall w i a ++
    match removeFromIndexes w a.key a.value i a.tier2 with
    | .ok w' => removeTreeCalls i w' as
    | .error _ => []

/-- The calls of removals and of the insertions after them. -/
def editTreeCalls (w : World) (i : UInt64) (rem ins : List Annotation) : List TreeCall :=
  removeTreeCalls i w rem ++
    match removeAnnotations w i rem with
    | .ok m => insertTreeCalls i m ins
    | .error _ => []

section SameCode

variable {u u' w : World} {i : UInt64} {k v : Bytes} {t : Bool} {as rem ins : List Annotation}

/-- The accounts of two worlds hold the same code. -/
def SameCode (u w : World) : Prop := ∀ a, u.code a = w.code a

omit [Keccak] [RoaringFormat] in
theorem SameCode.setCode (h : SameCode u w) (a : Address) (c : Bytes) :
    SameCode (u.setCode a c) (w.setCode a c) := by
  intro b
  rw [World.code_setCode, World.code_setCode, h b]

theorem SameCode.readPairBitmap (h : SameCode u w) (k v : Bytes) :
    readPairBitmap u k v = readPairBitmap w k v := readPairBitmap_congr (h _)

omit [RoaringFormat] in
theorem readIndexTree_congr (h : u.code (indexAddress k) = w.code (indexAddress k)) :
    readIndexTree u k = readIndexTree w k := by
  simp only [Arkiv.readIndexTree, h]

/-- Handlers read code only. -/
theorem SameCode.insertIntoIndexes (h : SameCode u w)
    (hu : insertIntoIndexes u k v i t = .ok u') :
    ∃ w', insertIntoIndexes w k v i t = .ok w' ∧ SameCode u' w' := by
  obtain ⟨b, hb, ⟨rfl, ht⟩ | ⟨tree, tree', new, bytes, ht, htree, hins, hbytes, rfl⟩⟩ :=
    insertIntoIndexes_cases hu
  · rw [h.readPairBitmap] at hb
    refine ⟨_, ?_, h.setCode _ (b.insert i).toBytes⟩
    simp only [Arkiv.insertIntoIndexes]
    refine Runs.ok_bind.mpr ⟨b, hb, ?_⟩
    rw [if_neg (by simp [ht])]
    rfl
  · rw [h.readPairBitmap] at hb
    rw [readIndexTree_congr (h.setCode _ _ _)] at htree
    refine ⟨_, ?_, (h.setCode _ (b.insert i).toBytes).setCode _ bytes⟩
    simp only [Arkiv.insertIntoIndexes]
    refine Runs.ok_bind.mpr ⟨b, hb, ?_⟩
    rw [if_pos ht]
    exact Runs.ok_bind.mpr ⟨tree, htree, Runs.ok_bind.mpr ⟨_, orPanic_ok.mpr hins,
      Runs.ok_bind.mpr ⟨bytes, orPanic_ok.mpr hbytes, rfl⟩⟩⟩

theorem SameCode.removeFromIndexes (h : SameCode u w)
    (hu : removeFromIndexes u k v i t = .ok u') :
    ∃ w', removeFromIndexes w k v i t = .ok w' ∧ SameCode u' w' := by
  obtain ⟨b, hb, ⟨he, rfl⟩ | ⟨he, ht, rfl⟩ |
    ⟨tree, tree', gone, he, ht, htree, hrem, bytes, hbytes, rfl⟩⟩ := removeFromIndexes_cases hu
  · rw [h.readPairBitmap] at hb
    refine ⟨w, ?_, h⟩
    simp only [Arkiv.removeFromIndexes]
    refine Runs.ok_bind.mpr ⟨b, hb, ?_⟩
    rw [if_pos he]
    rfl
  · rw [h.readPairBitmap] at hb
    refine ⟨_, ?_, h.setCode _ (b.remove i).toBytes⟩
    simp only [Arkiv.removeFromIndexes]
    refine Runs.ok_bind.mpr ⟨b, hb, ?_⟩
    rw [if_neg (by simp [he]), if_neg (by simp [ht])]
    rfl
  · rw [h.readPairBitmap] at hb
    rw [readIndexTree_congr (h.setCode _ _ _)] at htree
    refine ⟨_, ?_, (h.setCode _ (b.remove i).toBytes).setCode _ bytes⟩
    simp only [Arkiv.removeFromIndexes]
    refine Runs.ok_bind.mpr ⟨b, hb, ?_⟩
    rw [if_neg (by simp [he]), if_pos ht]
    refine Runs.ok_bind.mpr ⟨tree, htree, Runs.ok_bind.mpr ⟨_, orPanic_ok.mpr hrem, ?_⟩⟩
    obtain ⟨hempty, rfl⟩ | ⟨hfull, hbytes⟩ := hbytes
    · simp only [hempty, if_true]
      rfl
    · simp only [hfull, Bool.false_eq_true, if_false]
      exact Runs.ok_bind.mpr ⟨bytes, orPanic_ok.mpr hbytes, rfl⟩

theorem SameCode.insertTreeCalls (h : SameCode u w) (hu : insertAnnotations u i as = .ok u') :
    insertTreeCalls i u as = insertTreeCalls i w as := by
  induction as generalizing u w with
  | nil => rfl
  | cons a as ih =>
    obtain ⟨u₁, hfirst, hrest⟩ := Runs.foldlM_cons_ok.mp hu
    obtain ⟨w₁, hfirst', hsame⟩ := h.insertIntoIndexes hfirst
    simp only [Arkiv.insertTreeCalls, insertTreeCall, h.readPairBitmap,
      readIndexTree_congr (h (indexAddress a.key)), hfirst, hfirst']
    rw [ih hsame hrest]

theorem SameCode.removeTreeCalls (h : SameCode u w) (hu : removeAnnotations u i as = .ok u') :
    removeTreeCalls i u as = removeTreeCalls i w as ∧
      ∃ w', removeAnnotations w i as = .ok w' ∧ SameCode u' w' := by
  induction as generalizing u w with
  | nil =>
    obtain rfl := Except.ok.inj hu
    exact ⟨rfl, w, rfl, h⟩
  | cons a as ih =>
    obtain ⟨u₁, hfirst, hrest⟩ := Runs.foldlM_cons_ok.mp hu
    obtain ⟨w₁, hfirst', hsame⟩ := h.removeFromIndexes hfirst
    obtain ⟨hcalls, w', hw', hsame'⟩ := ih hsame hrest
    refine ⟨?_, w', Runs.foldlM_cons_ok.mpr ⟨w₁, hfirst', hw'⟩, hsame'⟩
    simp only [Arkiv.removeTreeCalls, removeTreeCall, h.readPairBitmap,
      readIndexTree_congr (h (indexAddress a.key)), hfirst, hfirst']
    rw [hcalls]

theorem SameCode.editTreeCalls (h : SameCode u w) (hu : Edits u u' i rem ins) :
    editTreeCalls u i rem ins = editTreeCalls w i rem ins := by
  obtain ⟨m, hrem, hins⟩ := hu
  obtain ⟨hcalls, m', hm', hsame⟩ := h.removeTreeCalls hrem
  unfold Arkiv.editTreeCalls
  rw [hcalls, hrem, hm']
  exact congrArg _ (hsame.insertTreeCalls hins)

end SameCode

section Holds

variable {S : Scope} {Q : Set Bytes} {w w' : World} {x : TwoTier.Index Bytes Bytes UInt64}
  {i : UInt64} {a : Annotation} {as rem ins : List Annotation}

/-- Under the keys in `Q` the pair accounts hold the postings. -/
def PairsHold (S : Scope) (Q : Set Bytes) (w : World) (x : TwoTier.Index Bytes Bytes UInt64) :
    Prop :=
  ∀ k ∈ Q, ∀ v, S.Covers k v →
    ∃ b, readPairBitmap w k v = .ok b ∧ ∀ i, i ∈ b ↔ i ∈ x.post k v

/-- Under the keys in `Q` the index accounts hold the lists of values. -/
def TreesHold (S : Scope) (Q : Set Bytes) (w : World) (x : TwoTier.Index Bytes Bytes UInt64) :
    Prop :=
  ∀ k ∈ Q, indexPreimage k ∈ S.accounts →
    ∃ s, StoredSet (w.code (indexAddress k)) s ∧ ∀ v, v ∈ s ↔ v ∈ x.vals k

/-- **Edits of the pair accounts** are edits of the postings. -/
theorem PairsHold.edits (h : PairsHold S Q w x) (hrem : S.CoversAll rem) (hins : S.CoversAll ins)
    (hedits : Edits w w' i rem ins) : PairsHold S Q w' (x.edit annotationSchema i rem ins) := by
  intro k hk v hkv
  obtain ⟨b, hb, hmem⟩ := h k hk v hkv
  obtain ⟨b', hb', hmem'⟩ := hedits.postings hkv hrem hins hb
  refine ⟨b', hb', fun j => ?_⟩
  rw [hmem', TwoTier.mem_post_edit, hmem]
  rfl

theorem PairsHold.insert (h : PairsHold S Q w x) (ha : S.Covers a.key a.value)
    (hins : insertIntoIndexes w a.key a.value i a.tier2 = .ok w') :
    PairsHold S Q w' (TwoTier.Index.insert annotationSchema i x a) :=
  have hedits : Edits w w' i [] [a] := ⟨w, rfl, Runs.foldlM_cons_ok.mpr ⟨w', hins, rfl⟩⟩
  h.edits (by simp [Scope.CoversAll]) (by simpa [Scope.CoversAll] using ha) hedits

theorem PairsHold.remove (h : PairsHold S Q w x) (ha : S.Covers a.key a.value)
    (hrem : removeFromIndexes w a.key a.value i a.tier2 = .ok w') :
    PairsHold S Q w' (TwoTier.Index.remove annotationSchema i x a) :=
  have hedits : Edits w w' i [a] [] := ⟨w', Runs.foldlM_cons_ok.mpr ⟨w', hrem, rfl⟩, rfl⟩
  h.edits (by simpa [Scope.CoversAll] using ha) (by simp [Scope.CoversAll]) hedits

/-- The bitmap of a pair is empty exactly when nothing is posted. -/
theorem PairsHold.isEmpty_iff (h : PairsHold S Q w x) {k v : Bytes} (hk : k ∈ Q)
    (hkv : S.Covers k v) {b : Bitmap} (hb : readPairBitmap w k v = .ok b) :
    b.isEmpty = true ↔ x.post k v = ∅ := by
  obtain ⟨b', hb', hmem⟩ := h k hk v hkv
  obtain rfl := Except.ok.inj (hb.symm.trans hb')
  rw [Bitmap.isEmpty_iff, Set.eq_empty_iff_forall_notMem]
  exact forall_congr' fun j => not_congr (hmem j)

omit [RoaringFormat] in
/-- The code of the index account, read as a tree. -/
theorem ofCode_of_readIndexTree {k : Bytes} {t : IndexTree} (h : readIndexTree w k = .ok t) :
    IndexTree.ofCode (w.code (indexAddress k)) = .ok t := by
  simp only [readIndexTree] at h
  unfold IndexTree.ofCode
  split at h
  · next hnil =>
    rw [if_pos hnil]
    exact congrArg _ (Except.ok.inj h)
  · next hnil =>
    rw [if_neg hnil]
    split at h
    · next heq => rw [heq, Except.ok.inj h]
    · cases h

omit [RoaringFormat] in
theorem readIndexTree_of_ofCode {k : Bytes} {t : IndexTree}
    (h : IndexTree.ofCode (w.code (indexAddress k)) = .ok t) : readIndexTree w k = .ok t := by
  simp only [readIndexTree]
  unfold IndexTree.ofCode at h
  split at h
  · next hnil =>
    rw [if_pos hnil]
    exact congrArg _ (Except.ok.inj h)
  · next hnil => rw [if_neg hnil, h]

omit [Keccak] [RoaringFormat] in
theorem onCode_of_onTree {code bytes : Bytes} {op : SetOp} {t : IndexTree}
    {r : IndexTree × Bool} (hread : IndexTree.ofCode code = .ok t) (hop : op.onTree t = some r)
    (hbytes : op.written r.1 = some bytes) : op.onCode code = some (bytes, r.2) := by
  rw [SetOp.onCode, hread]
  show (op.onTree t).bind _ = _
  rw [hop, Option.bind_some, hbytes]
  rfl

omit [RoaringFormat] in
/-- An annotation does not touch the index accounts of other keys. -/
theorem Scope.index_notMem_pairAccounts {k : Bytes} (hk : indexPreimage k ∈ S.accounts)
    (ha : S.Covers a.key a.value) (hne : k ≠ a.key) :
    indexAddress k ∉ pairAccounts a.key a.value := by
  rintro (heq | heq)
  · exact Scope.pairAddress_ne_of_mem ha.pair hk heq.symm
  · exact hne (indexPreimage_inj (S.accounts_inj hk ha.index heq))

/-- **One insertion** into the accounts is one into the index. -/
theorem TreesHold.insert (h : TreesHold S Q w x) (hP : PairsHold S Q w x)
    (ha : S.Covers a.key a.value) (hlen : a.value.length ≤ 255)
    (hins : insertIntoIndexes w a.key a.value i a.tier2 = .ok w')
    (hslots : ∀ c ∈ insertTreeCall w a, c.key ∈ Q → c.op.KeepsSlots c.tree) :
    TreesHold S Q w' (TwoTier.Index.insert annotationSchema i x a) := by
  intro k hk hindex
  obtain ⟨s, hs, hmem⟩ := h k hk hindex
  by_cases hkey : k = a.key
  · subst hkey
    have hne : indexAddress a.key ≠ pairAddress a.key a.value :=
      (Scope.pairAddress_ne_of_mem ha.pair ha.index).symm
    obtain ⟨b, hb, ⟨rfl, ht⟩ | ⟨tree, tree', new, bytes, ht, htree, hcall, hbytes, rfl⟩⟩ :=
      insertIntoIndexes_cases hins
    · refine ⟨s, by rwa [World.code_setCode_of_ne _ _ _ _ hne], fun v => ?_⟩
      rw [hmem]
      refine (or_iff_left ?_).symm
      rintro ⟨⟨-, rfl⟩, hlisted, hnone⟩
      have hempty := (hP.isEmpty_iff hk ha hb).mpr hnone
      rw [show a.tier2 = true from hlisted, hempty] at ht
      cases ht
    · rw [readIndexTree_congr (World.code_setCode_of_ne _ _ _ _ hne)] at htree
      obtain ⟨htier, hempty⟩ := (Bool.and_eq_true _ _).mp ht
      have hread := ofCode_of_readIndexTree htree
      have hcall' : (SetOp.insert a.value).onTree tree = some (tree', new) := hcall
      have hkeeps : (SetOp.insert a.value).KeepsSlots tree := by
        refine hslots ⟨a.key, tree, .insert a.value⟩ ?_ hk
        simp only [insertTreeCall, hb, htree, ht, if_true, List.mem_singleton]
      obtain ⟨code, hcode, hstored⟩ :=
        hs.call (fun key hkey => by rw [← SetOp.insert.inj hkey]; exact hlen) fun t ht' => by
          rw [← Except.ok.inj (hread.symm.trans ht')]
          exact hkeeps
      rw [onCode_of_onTree hread hcall' hbytes] at hcode
      obtain ⟨rfl, -⟩ := Prod.mk.inj (Option.some.inj hcode)
      refine ⟨_, by rw [World.code_setCode_self]; exact hstored, fun v => ?_⟩
      show v ∈ Insert.insert a.value s ↔ _
      rw [Finset.mem_insert, hmem, or_comm]
      refine or_congr_right ⟨?_, fun hv => hv.1.2.symm⟩
      rintro rfl
      exact ⟨⟨rfl, rfl⟩, htier, (hP.isEmpty_iff hk ha hb).mp hempty⟩
  · have hcode := (insertIntoIndexes_frame hins).code _
      (Scope.index_notMem_pairAccounts hindex ha hkey)
    refine ⟨s, by rwa [hcode], fun v => ?_⟩
    rw [hmem]
    exact (or_iff_left fun hv => hkey hv.1.1.symm).symm

/-- **One removal** from the accounts is one from the index. -/
theorem TreesHold.remove (h : TreesHold S Q w x) (hP : PairsHold S Q w x)
    (ha : S.Covers a.key a.value)
    (hrem : removeFromIndexes w a.key a.value i a.tier2 = .ok w')
    (hslots : ∀ c ∈ removeTreeCall w i a, c.key ∈ Q → c.op.KeepsSlots c.tree) :
    TreesHold S Q w' (TwoTier.Index.remove annotationSchema i x a) := by
  intro k hk hindex
  obtain ⟨s, hs, hmem⟩ := h k hk hindex
  by_cases hkey : k = a.key
  · subst hkey
    have hne : indexAddress a.key ≠ pairAddress a.key a.value :=
      (Scope.pairAddress_ne_of_mem ha.pair ha.index).symm
    obtain ⟨b, hb, hcase⟩ := removeFromIndexes_cases hrem
    have hempty_iff := hP.isEmpty_iff hk ha hb
    have hlast_iff : (b.remove i).isEmpty = true ↔ x.post a.key a.value ⊆ {i} := by
      obtain ⟨b', hb', hpost⟩ := hP a.key hk a.value ha
      obtain rfl := Except.ok.inj (hb.symm.trans hb')
      rw [Bitmap.isEmpty_iff]
      constructor
      · intro hno j hj
        by_contra hji
        exact hno j (Bitmap.mem_remove.mpr ⟨hji, (hpost j).mpr hj⟩)
      · intro hsub j hj
        obtain ⟨hji, hjb⟩ := Bitmap.mem_remove.mp hj
        exact hji (hsub ((hpost j).mp hjb))
    have hnonempty_iff : b.isEmpty = false ↔ (x.post a.key a.value).Nonempty := by
      rw [Set.nonempty_iff_ne_empty, ne_eq, ← hempty_iff, Bool.not_eq_true]
    obtain ⟨he, rfl⟩ | ⟨he, ht, rfl⟩ |
      ⟨tree, tree', gone, he, ht, htree, hcall, bytes, hbytes, rfl⟩ := hcase
    · refine ⟨s, hs, fun v => ?_⟩
      rw [hmem]
      refine (and_iff_left ?_).symm
      rintro ⟨⟨-, rfl⟩, -, hne', -⟩
      exact Set.not_nonempty_empty (hempty_iff.mp he ▸ hne')
    · refine ⟨s, by rwa [World.code_setCode_of_ne _ _ _ _ hne], fun v => ?_⟩
      rw [hmem]
      refine (and_iff_left ?_).symm
      rintro ⟨⟨-, rfl⟩, hlisted, -, hsub⟩
      rw [show a.tier2 = true from hlisted, hlast_iff.mpr hsub] at ht
      cases ht
    · rw [readIndexTree_congr (World.code_setCode_of_ne _ _ _ _ hne)] at htree
      obtain ⟨htier, hlast⟩ := (Bool.and_eq_true _ _).mp ht
      have hread := ofCode_of_readIndexTree htree
      have hwritten : (SetOp.remove a.value).written tree' = some bytes := by
        obtain ⟨hempty, rfl⟩ | ⟨hfull, hto⟩ := hbytes
        · exact if_pos hempty
        · exact (if_neg (by simp [hfull])).trans hto
      have hcall' : (SetOp.remove a.value).onTree tree = some (tree', gone) := hcall
      have hkeeps : (SetOp.remove a.value).KeepsSlots tree := by
        refine hslots ⟨a.key, tree, .remove a.value⟩ ?_ hk
        simp only [removeTreeCall, hb, htree, he, ht, Bool.not_false, Bool.true_and, if_true,
          List.mem_singleton]
      obtain ⟨code, hcode, hstored⟩ :=
        hs.call (fun key hkey => SetOp.noConfusion hkey) fun t ht' => by
          rw [← Except.ok.inj (hread.symm.trans ht')]
          exact hkeeps
      rw [onCode_of_onTree hread hcall' hwritten] at hcode
      obtain ⟨rfl, -⟩ := Prod.mk.inj (Option.some.inj hcode)
      refine ⟨_, by rw [World.code_setCode_self]; exact hstored, fun v => ?_⟩
      show v ∈ s.erase a.value ↔ _
      rw [Finset.mem_erase, hmem, and_comm]
      refine and_congr_right fun _ => ⟨fun hv hno => hv hno.1.2.symm, ?_⟩
      rintro hno rfl
      exact hno ⟨⟨rfl, rfl⟩, htier, hnonempty_iff.mp he, hlast_iff.mp hlast⟩
  · have hcode := (removeFromIndexes_frame hrem).code _
      (Scope.index_notMem_pairAccounts hindex ha hkey)
    refine ⟨s, by rwa [hcode], fun v => ?_⟩
    rw [hmem]
    exact (and_iff_left fun hv => hkey hv.1.1.symm).symm

theorem TreesHold.insertAll (h : TreesHold S Q w x) (hP : PairsHold S Q w x)
    (has : S.CoversAll as) (hlen : ∀ a ∈ as, a.value.length ≤ 255)
    (hins : insertAnnotations w i as = .ok w')
    (hslots : ∀ c ∈ insertTreeCalls i w as, c.key ∈ Q → c.op.KeepsSlots c.tree) :
    TreesHold S Q w' (as.foldl (TwoTier.Index.insert annotationSchema i) x) := by
  induction as generalizing w x with
  | nil =>
    obtain rfl := Except.ok.inj hins
    exact h
  | cons a as ih =>
    obtain ⟨ha, has⟩ := List.forall_mem_cons.mp has
    obtain ⟨hlena, hlen⟩ := List.forall_mem_cons.mp hlen
    obtain ⟨u, hfirst, hrest⟩ := Runs.foldlM_cons_ok.mp hins
    simp only [insertTreeCalls, hfirst, List.mem_append, or_imp, forall_and] at hslots
    exact ih (h.insert hP ha hlena hfirst hslots.1) (hP.insert ha hfirst) has hlen hrest hslots.2

theorem TreesHold.removeAll (h : TreesHold S Q w x) (hP : PairsHold S Q w x)
    (has : S.CoversAll as) (hrem : removeAnnotations w i as = .ok w')
    (hslots : ∀ c ∈ removeTreeCalls i w as, c.key ∈ Q → c.op.KeepsSlots c.tree) :
    TreesHold S Q w' (as.foldl (TwoTier.Index.remove annotationSchema i) x) ∧
      PairsHold S Q w' (as.foldl (TwoTier.Index.remove annotationSchema i) x) := by
  induction as generalizing w x with
  | nil =>
    obtain rfl := Except.ok.inj hrem
    exact ⟨h, hP⟩
  | cons a as ih =>
    obtain ⟨ha, has⟩ := List.forall_mem_cons.mp has
    obtain ⟨u, hfirst, hrest⟩ := Runs.foldlM_cons_ok.mp hrem
    simp only [removeTreeCalls, hfirst, List.mem_append, or_imp, forall_and] at hslots
    exact ih (h.remove hP ha hfirst hslots.1) (hP.remove ha hfirst) has hrest hslots.2

/-- **Edits of the index accounts** are edits of the lists. -/
theorem TreesHold.edits (h : TreesHold S Q w x) (hP : PairsHold S Q w x) (hrem : S.CoversAll rem)
    (hins : S.CoversAll ins) (hlen : ∀ a ∈ ins, a.value.length ≤ 255)
    (hedits : Edits w w' i rem ins)
    (hslots : ∀ c ∈ editTreeCalls w i rem ins, c.key ∈ Q → c.op.KeepsSlots c.tree) :
    TreesHold S Q w' (x.edit annotationSchema i rem ins) := by
  obtain ⟨m, hr, hi⟩ := hedits
  simp only [editTreeCalls, hr, List.mem_append, or_imp, forall_and] at hslots
  obtain ⟨hmid, hmidP⟩ := h.removeAll hP hrem hr hslots.1
  exact hmid.insertAll hmidP hins hlen hi hslots.2

end Holds

end Arkiv
