import Mathlib
import Arkiv.DevChain.Check
import Arkiv.Registry.Postings

/-!
# The diff of an update against a rebuild

An update edits only the annotations that it changes. The plain procedure would
take the ID out of every old posting and put it into every new one.

## Main definitions

- `rebuildAnnotations` — the plain procedure
- `PostedExactly` — an ID is posted under the pairs of a list and no others
- `KeepsPairs` — a dropped annotation whose pair stays is inserted in its other tier
- `sameBitmaps_iff` — diff and rebuild agree exactly then
-/

namespace Arkiv

open ByteString

/-- Whenever an annotation goes and its pair does not, the pair is inserted anew. -/
def KeepsPairs (old new : List Annotation) : Prop :=
  ∀ a ∈ old, a ∉ new → SharesPair new a.key a.value →
    SharesPair (new.filter fun b => b ∉ old) a.key a.value

instance (old new : List Annotation) : Decidable (KeepsPairs old new) :=
  inferInstanceAs (Decidable (∀ a ∈ old, a ∉ new → SharesPair new a.key a.value →
    SharesPair (new.filter fun b => b ∉ old) a.key a.value))

variable [Keccak] [RoaringFormat]

/-- Every old posting out, then every new posting in. -/
def rebuildAnnotations (w : World) (old new : List Annotation) (entityId : UInt64) :
    Except DbError World := do
  let w ← removeAnnotations w entityId old
  insertAnnotations w entityId new

/-- The pair bitmaps of the scope can be read, and the ID is in those of the list. -/
def PostedExactly (S : Scope) (w : World) (i : UInt64) (as : List Annotation) : Prop :=
  ∀ k v, pairPreimage k v ∈ S.accounts →
    ∃ b, readPairBitmap w k v = .ok b ∧ (i ∈ b ↔ SharesPair as k v)

/-- The pair bitmaps of the scope hold the same IDs. -/
def SameBitmaps (S : Scope) (w w' : World) : Prop :=
  ∀ k v, pairPreimage k v ∈ S.accounts →
    ∃ b b', readPairBitmap w k v = .ok b ∧ readPairBitmap w' k v = .ok b' ∧ ∀ j, j ∈ b ↔ j ∈ b'

theorem edits_of_rebuild {w w' : World} {old new : List Annotation} {i : UInt64}
    (h : rebuildAnnotations w old new i = .ok w') : Edits w w' i old new := Runs.ok_bind.mp h

theorem edits_of_diff {w w' : World} {old new : List Annotation} {i : UInt64}
    (h : applyAnnotationDiff w old new i = .ok w') :
    Edits w w' i (old.filter fun a => a ∉ new) (new.filter fun a => a ∉ old) := Runs.ok_bind.mp h

variable {S : Scope} {w wd wr : World} {i : UInt64} {old new : List Annotation}

omit [RoaringFormat] in
theorem Scope.HasAccounts.filter {as : List Annotation} (h : S.HasAccounts as)
    (p : Annotation → Bool) : S.HasAccounts (as.filter p) := fun a ha =>
  h a (List.mem_of_mem_filter ha)

omit [Keccak] [RoaringFormat] in
/-- What the diff leaves posted, against the new pairs. -/
theorem keepsPairs_iff :
    KeepsPairs old new ↔ ∀ k v,
      (SharesPair (new.filter fun a => a ∉ old) k v ∨
        SharesPair old k v ∧ ¬SharesPair (old.filter fun a => a ∉ new) k v) ↔
      SharesPair new k v := by
  constructor
  · intro hkeeps k v
    constructor
    · rintro (⟨a, ha, heq⟩ | ⟨⟨a, ha, heq⟩, hno⟩)
      · exact ⟨a, List.mem_of_mem_filter ha, heq⟩
      · by_contra hnew
        refine hno ⟨a, List.mem_filter.mpr ⟨ha, decide_eq_true fun hmem => hnew ?_⟩, heq⟩
        exact ⟨a, hmem, heq⟩
    · rintro ⟨b, hb, heq⟩
      by_cases hdrop : SharesPair (old.filter fun a => a ∉ new) k v
      · -- A dropped annotation of the pair: the condition inserts the pair again.
        obtain ⟨a, ha, hpair⟩ := hdrop
        obtain ⟨hold, hnew⟩ := List.mem_filter.mp ha
        obtain ⟨c, hc, hshare⟩ := hkeeps a hold (of_decide_eq_true hnew) ⟨b, hb, heq.trans hpair.symm⟩
        exact .inl ⟨c, hc, hshare.trans hpair⟩
      · by_cases hold : b ∈ old
        · exact .inr ⟨⟨b, hold, heq⟩, hdrop⟩
        · exact .inl ⟨b, List.mem_filter.mpr ⟨hb, decide_eq_true hold⟩, heq⟩
  · intro h a ha hnew hshare
    rcases (h a.key a.value).mpr hshare with hins | ⟨-, hno⟩
    · exact hins
    · exact absurd ⟨a, List.mem_filter.mpr ⟨ha, decide_eq_true hnew⟩, rfl⟩ hno

omit [RoaringFormat] in
theorem Scope.HasAccounts.mem_of_sharesPair {as : List Annotation} (h : S.HasAccounts as)
    {k v : Bytes} (hs : SharesPair as k v) : pairPreimage k v ∈ S.accounts := by
  obtain ⟨a, ha, heq⟩ := hs
  rw [← heq]
  exact (h a ha).1

/-- Both procedures on one pair bitmap: other IDs stay, and the ID is posted by each as its lists
    say. -/
theorem exists_edited (hold : S.HasAccounts old) (hnew : S.HasAccounts new)
    (hposted : PostedExactly S w i old) (hdiff : applyAnnotationDiff w old new i = .ok wd)
    (hrebuild : rebuildAnnotations w old new i = .ok wr) {k v : Bytes}
    (hk : pairPreimage k v ∈ S.accounts) :
    ∃ bd br, readPairBitmap wd k v = .ok bd ∧ readPairBitmap wr k v = .ok br ∧
      (∀ j, j ≠ i → (j ∈ bd ↔ j ∈ br)) ∧ (i ∈ br ↔ SharesPair new k v) ∧
      (i ∈ bd ↔ SharesPair (new.filter fun a => a ∉ old) k v ∨
        SharesPair old k v ∧ ¬SharesPair (old.filter fun a => a ∉ new) k v) := by
  obtain ⟨b, hb, hmem⟩ := hposted k v hk
  obtain ⟨bd, hbd, hd⟩ := (edits_of_diff hdiff).pair hk (hold.filter _) (hnew.filter _) hb
  obtain ⟨br, hbr, hr⟩ := (edits_of_rebuild hrebuild).pair hk hold hnew hb
  refine ⟨bd, br, hbd, hbr, fun j hj => ?_, ?_, ?_⟩
  · rw [hd, hr, if_neg hj, if_neg hj]
  · rw [hr, if_pos rfl, hmem]
    tauto
  · rw [hd, if_pos rfl, hmem]

/-- **Diff and rebuild**: from a state in which the ID is posted exactly under the old annotations
    the diff leaves the pair bitmaps of a rebuild exactly when the lists keep their pairs. -/
theorem sameBitmaps_iff (hold : S.HasAccounts old) (hnew : S.HasAccounts new)
    (hposted : PostedExactly S w i old) (hdiff : applyAnnotationDiff w old new i = .ok wd)
    (hrebuild : rebuildAnnotations w old new i = .ok wr) :
    SameBitmaps S wd wr ↔ KeepsPairs old new := by
  rw [keepsPairs_iff]
  constructor
  · intro hsame k v
    by_cases hk : pairPreimage k v ∈ S.accounts
    · obtain ⟨bd, br, hbd, hbr, -, hir, hid⟩ := exists_edited hold hnew hposted hdiff hrebuild hk
      obtain ⟨b, b', hb, hb', hiff⟩ := hsame k v hk
      rw [hbd] at hb
      rw [hbr] at hb'
      cases hb
      cases hb'
      rw [← hid, ← hir]
      exact hiff i
    · -- Pairs outside the scope are in neither list.
      have hnone : ∀ as : List Annotation, S.HasAccounts as → ¬SharesPair as k v :=
        fun as has hs => hk (has.mem_of_sharesPair hs)
      have h₁ := hnone _ (hnew.filter fun a => a ∉ old)
      have h₂ := hnone old hold
      have h₃ := hnone new hnew
      tauto
  · intro hiff k v hk
    obtain ⟨bd, br, hbd, hbr, hother, hir, hid⟩ :=
      exists_edited hold hnew hposted hdiff hrebuild hk
    refine ⟨bd, br, hbd, hbr, fun j => ?_⟩
    by_cases hj : j = i
    · rw [hj, hid, hir]
      exact hiff k v
    · exact hother j hj

end Arkiv

namespace Arkiv.DevChain

open ByteString

/-- A 32-byte value, as text and as an entity key. -/
def linkValue : Bytes := List.replicate 32 0x61

def linkText : Attribute := ⟨ascii "link", attrString, linkValue⟩

def linkKey : Attribute := ⟨ascii "link", attrEntityKey, linkValue⟩

def linkAnnotations (attributes : List Attribute) : List Annotation :=
  updatableAnnotations (ascii "text/plain") attributes

def bothLinks : List Annotation := linkAnnotations [linkText, linkKey]

def oneLink : List Annotation := linkAnnotations [linkText]

def linkScope : Scope :=
  Scope.ofLists (preimages [] bothLinks).dedup [.entityCount] [] (by decide +kernel)
    (by decide +kernel) (by simp) system_not_mem_nil (by simp)

/-- The ID is in the bitmap of the pair. -/
def postedUnder (w : World) (i : UInt64) (k v : Bytes) : Bool :=
  match readPairBitmap w k v with
  | .ok b => decide (i ∈ b)
  | .error _ => false

/-- From a state with both links, the diff to one link and the rebuild to it: both succeed, and the
    rebuild alone keeps the ID posted. -/
def retierFacts : Bool :=
  match insertAnnotations World.genesis 7 bothLinks with
  | .ok w =>
    (bothLinks.all fun a => postedUnder w 7 a.key a.value) &&
      match applyAnnotationDiff w bothLinks oneLink 7, rebuildAnnotations w bothLinks oneLink 7 with
      | .ok wd, .ok wr =>
        !postedUnder wd 7 (ascii "link") linkValue && postedUnder wr 7 (ascii "link") linkValue
      | _, _ => false
  | .error _ => false

theorem retierFacts_eq : retierFacts = true := by decide +kernel

theorem mem_accounts_linkScope {p : Bytes} :
    p ∈ linkScope.accounts ↔ p ∈ preimages [] bothLinks := List.mem_dedup

theorem hasAccounts_bothLinks : linkScope.HasAccounts bothLinks := by
  intro a ha
  refine ⟨mem_accounts_linkScope.mpr ?_, mem_accounts_linkScope.mpr ?_⟩
  · exact List.mem_append_right _ (List.mem_flatMap.mpr ⟨a, ha, by simp⟩)
  · exact List.mem_append_right _ (List.mem_flatMap.mpr ⟨a, ha, by simp⟩)

theorem hasAccounts_oneLink : linkScope.HasAccounts oneLink := fun a ha =>
  hasAccounts_bothLinks a (by
    have hsub : ∀ a ∈ oneLink, a ∈ bothLinks := by decide
    exact hsub a ha)

theorem postedUnder_iff {w : World} {i : UInt64} {k v : Bytes} :
    postedUnder w i k v = true ↔ ∃ b, readPairBitmap w k v = .ok b ∧ i ∈ b := by
  rw [postedUnder]
  cases readPairBitmap w k v <;> simp

/-- The pairs of the scope are those of the two links. -/
theorem sharesPair_of_mem_linkScope {k v : Bytes} (h : pairPreimage k v ∈ linkScope.accounts) :
    SharesPair bothLinks k v := by
  obtain ⟨a, ha, hp⟩ := List.mem_flatMap.mp (mem_accounts_linkScope.mp h)
  rcases List.mem_cons.mp hp with heq | hp
  · exact ⟨a, ha, heq.symm⟩
  · exact absurd (List.mem_singleton.mp hp) (pairPreimage_ne_indexPreimage _ _ _)

theorem postedExactly_of_all {w : World} {i : UInt64}
    (h : (bothLinks.all fun a => postedUnder w i a.key a.value) = true) :
    PostedExactly linkScope w i bothLinks := by
  intro k v hk
  obtain ⟨a, ha, heq⟩ := sharesPair_of_mem_linkScope hk
  obtain ⟨b, hb, hmem⟩ := postedUnder_iff.mp (List.all_eq_true.mp h a ha)
  exact ⟨b, (readPairBitmap_of_pair heq w).symm.trans hb, fun _ => ⟨a, ha, heq⟩, fun _ => hmem⟩

/-- The worlds of `retierFacts`. -/
theorem exists_retier : ∃ w wd wr, PostedExactly linkScope w 7 bothLinks ∧
    applyAnnotationDiff w bothLinks oneLink 7 = .ok wd ∧
    rebuildAnnotations w bothLinks oneLink 7 = .ok wr ∧
    postedUnder wd 7 (ascii "link") linkValue = false ∧
    postedUnder wr 7 (ascii "link") linkValue = true := by
  have h := retierFacts_eq
  unfold retierFacts at h
  split at h
  · next w hw =>
    simp only [Bool.and_eq_true] at h
    obtain ⟨hall, h⟩ := h
    split at h
    · next wd wr hwd hwr =>
      simp only [Bool.and_eq_true, Bool.not_eq_true'] at h
      obtain ⟨hd, hr⟩ := h
      exact ⟨w, wd, wr, postedExactly_of_all hall, hwd, hwr, hd, hr⟩
    · simp at h
  · simp at h

/-- An update that drops the entity key and keeps the text loses the posting of both. -/
theorem not_sameBitmaps_retier : ¬∀ (S : Scope) (w wd wr : World) (i : UInt64)
    (contentType contentType' : Bytes) (attributes attributes' : List Attribute),
    S.HasAccounts (updatableAnnotations contentType attributes) →
    S.HasAccounts (updatableAnnotations contentType' attributes') →
    PostedExactly S w i (updatableAnnotations contentType attributes) →
    applyAnnotationDiff w (updatableAnnotations contentType attributes)
      (updatableAnnotations contentType' attributes') i = .ok wd →
    rebuildAnnotations w (updatableAnnotations contentType attributes)
      (updatableAnnotations contentType' attributes') i = .ok wr →
    SameBitmaps S wd wr := by
  intro hclaim
  obtain ⟨w, wd, wr, hposted, hdiff, hrebuild, hd, hr⟩ := exists_retier
  have hsame := hclaim linkScope w wd wr 7 _ _ _ _ hasAccounts_bothLinks hasAccounts_oneLink
    hposted hdiff hrebuild
  have hmem : ⟨ascii "link", linkValue, true⟩ ∈ bothLinks := by decide
  obtain ⟨b, b', hb, hb', hiff⟩ := hsame _ _ (hasAccounts_bothLinks _ hmem).1
  obtain ⟨br, hbr, hi⟩ := postedUnder_iff.mp hr
  rw [hb'] at hbr
  cases hbr
  have hposted' := postedUnder_iff.mpr ⟨b, hb, (hiff 7).mpr hi⟩
  rw [hd] at hposted'
  exact Bool.false_ne_true hposted'

theorem sameBitmaps_iff_retier : ∃ w wd wr, PostedExactly linkScope w 7 bothLinks ∧
    applyAnnotationDiff w bothLinks oneLink 7 = .ok wd ∧
    rebuildAnnotations w bothLinks oneLink 7 = .ok wr ∧
    (SameBitmaps linkScope wd wr ↔ KeepsPairs bothLinks oneLink) := by
  obtain ⟨w, wd, wr, hposted, hdiff, hrebuild, -⟩ := exists_retier
  exact ⟨w, wd, wr, hposted, hdiff, hrebuild,
    sameBitmaps_iff hasAccounts_bothLinks hasAccounts_oneLink hposted hdiff hrebuild⟩

end Arkiv.DevChain
