import Mathlib
import Arkiv.Query.Evaluation

/-!
# Pages that follow the cursor

A client asks for page after page with the cursor of the page before, while the
state may change between any two requests. Cursors fall, so the walk ends; the
pages together skip nothing that matches and resolves all along.

## Main definitions

- `Matches`, `Answers` — what a request finds in one state
- `PageOf` — what one response says about its state
- `Follows` — the responses from a cursor to the last page
- `exists_follows` — every walk ends and is complete
-/

namespace Arkiv

open ByteString

section Cursor

theorem hexDigits_of_lt {n : ℕ} (h : n < 16) : hexDigits n = [Nat.digitChar n] := by
  rw [hexDigits]
  by_cases hn : n = 0
  · rw [if_pos hn, hn]
    rfl
  · rw [if_neg hn, Nat.digits_of_lt 16 n hn h]
    rfl

theorem hexDigits_of_le {n : ℕ} (h : 16 ≤ n) :
    hexDigits n = hexDigits (n / 16) ++ [Nat.digitChar (n % 16)] := by
  have hdiv : n / 16 ≠ 0 := by omega
  rw [hexDigits, if_neg (by omega), hexDigits, if_neg hdiv,
    Nat.digits_def' (by decide) (by omega), List.map_cons, List.reverse_cons]

theorem hexValue_digitChar {d : ℕ} (h : d < 16) : hexValue (Nat.digitChar d) = some d := by
  have hall : ∀ d < 16, hexValue (Nat.digitChar d) = some d := by decide
  exact hall d h

/-- The digits of a number read back to it. -/
theorem foldlM_hexDigits {n : ℕ} (h : n < 2 ^ 64) :
    (hexDigits n).foldlM pushHexDigit 0 = some n := by
  induction n using Nat.strong_induction_on with
  | _ n ih =>
    by_cases hn : n < 16
    · rw [hexDigits_of_lt hn]
      simp [pushHexDigit, hexValue_digitChar hn]
      omega
    · have hmod : n % 16 < 16 := Nat.mod_lt _ (by decide)
      rw [hexDigits_of_le (by omega), List.foldlM_append, ih (n / 16) (by omega) (by omega)]
      have hsum : n / 16 * 16 + n % 16 = n := Nat.div_add_mod' n 16
      simp [pushHexDigit, hexValue_digitChar hmod, hsum]
      omega

theorem hexDigits_ne_nil (n : ℕ) : hexDigits n ≠ [] := by
  by_cases hn : n < 16
  · simp [hexDigits_of_lt hn]
  · simp [hexDigits_of_le (Nat.le_of_not_lt hn)]

/-- No number is written with a sign in front. -/
theorem plus_notMem_hexDigits (n : ℕ) : '+' ∉ hexDigits n := by
  induction n using Nat.strong_induction_on with
  | _ n ih =>
    have hplus : ∀ d < 16, '+' ≠ Nat.digitChar d := by decide
    by_cases hn : n < 16
    · rw [hexDigits_of_lt hn, List.mem_singleton]
      exact hplus n hn
    · rw [hexDigits_of_le (by omega), List.mem_append, List.mem_singleton]
      rintro (h | h)
      · exact ih (n / 16) (by omega) h
      · exact hplus _ (Nat.mod_lt _ (by decide)) h

theorem u64FromHex_hexDigits (id : UInt64) : u64FromHex (hexDigits id.toNat) = some id := by
  have hid := id.toNat_lt
  have hfold := foldlM_hexDigits (n := id.toNat) (by omega)
  have hplus := plus_notMem_hexDigits id.toNat
  have hnil := hexDigits_ne_nil id.toNat
  generalize hexDigits id.toNat = text at hfold hplus hnil
  have hsigned : ∀ rest, text ≠ '+' :: rest := by
    rintro rest rfl
    exact hplus List.mem_cons_self
  simp only [u64FromHex]
  split
  · next h => exact absurd h hnil
  · rw [hfold]
    simp

/-- **Cursor round trip**: the text of a cursor parses to the cursor. -/
theorem parseCursor_cursorText (cursor : Option UInt64) :
    parseCursor (cursor.map cursorText) = .ok cursor := by
  cases cursor with
  | none => rfl
  | some id => simp [parseCursor, cursorText, u64FromHex_hexDigits]

end Cursor

section Pages

variable [Keccak] [RoaringFormat] {w : World} {q : Query}

/-- The ID is among the results of the query and has an entity. -/
def Matches (w : World) (q : Query) (i : UInt64) : Prop :=
  ∃ b e, q.evaluate w = .ok b ∧ i ∈ b ∧ resolveId w i = .ok (some e)

/-- Evaluation and the resolution of its results succeed. -/
def Answers (w : World) (q : Query) : Prop :=
  ∃ b, q.evaluate w = .ok b ∧ ∀ i ∈ b, ∃ r, resolveId w i = .ok r

section OnePage

omit [RoaringFormat] in
/-- Where every ID resolves or is absent the loop splits the IDs into those it has visited and
    those that are left over when the page is full. -/
theorem fillPage_split {n : ℕ} {ids : List UInt64} {hits : List (UInt64 × EntityRlp)}
    (hids : ∀ i ∈ ids, ∃ r, resolveId w i = .ok r) (hlen : hits.length ≤ n) :
    ∃ new more visited rest, fillPage w n hits ids = .ok (hits ++ new, more) ∧
      ids = visited ++ rest ∧ (hits ++ new).length ≤ n ∧
      (∀ p ∈ new, p.1 ∈ visited ∧ resolveId w p.1 = .ok (some p.2)) ∧
      (∀ i ∈ visited, ∀ e, resolveId w i = .ok (some e) → i ∈ new.map (·.1)) ∧
      (new.map (·.1)).Sublist visited ∧
      (more = true → n ≤ (hits ++ new).length) ∧ (more = false → rest = []) := by
  -- By induction on the candidates; an ID without a record is visited and passed over.
  induction ids generalizing hits with
  | nil => exact ⟨[], false, [], [], by simp [fillPage], rfl, by simpa using hlen, by simp, by simp,
      by simp, by simp, by simp⟩
  | cons i ids ih =>
    by_cases hfull : n ≤ hits.length
    · exact ⟨[], true, [], i :: ids, by simp [fillPage, hfull], rfl, by simpa using hlen, by simp,
        by simp, by simp, by simpa using hfull, by simp⟩
    obtain ⟨r, hr⟩ := hids i List.mem_cons_self
    have hids' : ∀ j ∈ ids, ∃ r, resolveId w j = .ok r := fun j hj =>
      hids j (List.mem_cons_of_mem _ hj)
    cases r with
    | none =>
      obtain ⟨new, more, visited, rest, hfill, hsplit, hle, hnew, hvis, hsub, hmore, hrest⟩ :=
        ih hids' hlen
      refine ⟨new, more, i :: visited, rest, ?_, by rw [hsplit]; rfl, hle, fun p hp => ?_,
        fun j hj e he => ?_, hsub.cons i, hmore, hrest⟩
      · rw [fillPage, if_neg hfull, hr]
        exact hfill
      · exact ⟨List.mem_cons_of_mem _ (hnew p hp).1, (hnew p hp).2⟩
      · rcases List.mem_cons.mp hj with rfl | hj
        · rw [hr] at he
          simp at he
        · exact hvis j hj e he
    | some f =>
      have hlen' : (hits ++ [(i, f)]).length ≤ n := by
        simp only [List.length_append, List.length_singleton]
        omega
      obtain ⟨new, more, visited, rest, hfill, hsplit, hle, hnew, hvis, hsub, hmore, hrest⟩ :=
        ih hids' hlen'
      rw [List.append_assoc] at hfill hle hmore
      refine ⟨(i, f) :: new, more, i :: visited, rest, ?_, by rw [hsplit]; rfl, hle, fun p hp => ?_,
        fun j hj e he => ?_, hsub.cons_cons i, hmore, hrest⟩
      · rw [fillPage, if_neg hfull, hr]
        exact hfill
      · rcases List.mem_cons.mp hp with rfl | hp
        · exact ⟨List.mem_cons_self, hr⟩
        · exact ⟨List.mem_cons_of_mem _ (hnew p hp).1, (hnew p hp).2⟩
      · rcases List.mem_cons.mp hj with rfl | hj
        · exact List.mem_cons_self
        · exact List.mem_cons_of_mem _ (hvis j hj e he)

omit [Keccak] [RoaringFormat] in
/-- On descending IDs the ones not below the cursor stand in front. -/
theorem dropWhile_eq_filter {c : UInt64} {ids : List UInt64} (h : ids.Pairwise (· > ·)) :
    ids.dropWhile (fun id => decide (c ≤ id)) = ids.filter fun id => decide (id < c) := by
  induction ids with
  | nil => rfl
  | cons i ids ih =>
    obtain ⟨hi, hids⟩ := List.pairwise_cons.mp h
    by_cases hc : c ≤ i
    · rw [List.dropWhile_cons_of_pos (by simpa using hc), ih hids, List.filter_cons_of_neg]
      simpa using hc
    · have hlt : i < c := UInt64.not_le.mp hc
      rw [List.dropWhile_cons_of_neg (by simpa using hlt), eq_comm, List.filter_eq_self]
      intro j hj
      rcases List.mem_cons.mp hj with rfl | hj
      · exact decide_eq_true hlt
      · exact decide_eq_true (UInt64.lt_trans (hi j hj) hlt)

omit [Keccak] [RoaringFormat] in
theorem candidates_eq (b : Bitmap) (cursor : Option UInt64) :
    candidates b cursor =
      b.sortedIds.reverse.filter fun id => cursor.all fun c => decide (id < c) := by
  have hdesc : b.sortedIds.reverse.Pairwise (· > ·) :=
    List.pairwise_reverse.mpr b.sortedIds_pairwise
  cases cursor with
  | none => simp [candidates]
  | some c => simp [candidates, List.rdropWhile, dropWhile_eq_filter hdesc]

omit [Keccak] [RoaringFormat] in
theorem mem_candidates {b : Bitmap} {cursor : Option UInt64} {i : UInt64} :
    i ∈ candidates b cursor ↔ i ∈ b ∧ ∀ c, cursor = some c → i < c := by
  rw [candidates_eq, List.mem_filter, List.mem_reverse, Bitmap.mem_sortedIds]
  cases cursor <;> simp

omit [Keccak] [RoaringFormat] in
theorem candidates_pairwise (b : Bitmap) (cursor : Option UInt64) :
    (candidates b cursor).Pairwise (· > ·) := by
  rw [candidates_eq]
  exact (List.pairwise_reverse.mpr b.sortedIds_pairwise).filter _

/-- What a response says about its state: the IDs of its hits fall, match and are below the
    cursor; what matches below the cursor is on the page or below the next cursor. -/
structure PageOf (w : World) (q : Query) (size : UInt64) (cursor : Option UInt64)
    (r : QueryResponse) (next : Option UInt64) : Prop where
  text : r.cursor = next.map cursorText
  length : r.hits.length ≤ size.toNat
  falling : (r.hits.map (·.1)).Pairwise (· > ·)
  found : ∀ p ∈ r.hits, (∃ b, q.evaluate w = .ok b ∧ p.1 ∈ b) ∧ resolveId w p.1 = .ok (some p.2)
  below : ∀ p ∈ r.hits, ∀ c, cursor = some c → p.1 < c
  last : ∀ d, next = some d → d ∈ r.hits.map (·.1) ∧ ∀ p ∈ r.hits, d ≤ p.1
  complete : ∀ i, Matches w q i → (∀ c, cursor = some c → i < c) →
    i ∈ r.hits.map (·.1) ∨ ∃ d, next = some d ∧ i < d

theorem Answers.page (hw : Answers w q) {size : UInt64} (hsize : size ≠ 0)
    (cursor : Option UInt64) :
    ∃ page, q.execute w ⟨size, cursor⟩ = .ok page ∧ ∀ r : QueryResponse, r.hits = page.hits →
      r.cursor = page.nextCursor.map cursorText → PageOf w q size cursor r page.nextCursor := by
  obtain ⟨b, hb, hres⟩ := hw
  have hsize' : 0 < size.toNat := by
    by_contra hzero
    exact hsize (UInt64.toNat_inj.mp (by simpa using hzero))
  obtain ⟨new, more, visited, rest, hfill, hsplit, hle, hnew, hvis, hsub, hmore, hrest⟩ :=
    fillPage_split (show ∀ i ∈ candidates b cursor, ∃ r, resolveId w i = .ok r from
      fun i hi => hres i (mem_candidates.mp hi).1)
      (show ([] : List (UInt64 × EntityRlp)).length ≤ size.toNat from Nat.zero_le _)
  rw [List.nil_append] at hfill hle hmore
  -- Candidates fall, so that those on the page are above those left over.
  have hpairwise := candidates_pairwise b cursor
  rw [hsplit, List.pairwise_append] at hpairwise
  obtain ⟨hvisited, -, hcross⟩ := hpairwise
  have hcand : ∀ i ∈ visited, i ∈ candidates b cursor := fun i hi => by
    rw [hsplit]
    exact List.mem_append_left _ hi
  have hfalling : (new.map (·.1)).Pairwise (· > ·) := hvisited.sublist hsub
  refine ⟨⟨new, if more then new.getLast?.map (·.1) else none⟩, ?_, fun r hhits htext => ?_⟩
  · rw [Query.execute, if_neg hsize]
    simp only [liftQuery, hb, hfill, bind, Except.bind, pure, Except.pure]
  · refine ⟨htext, ?length, ?falling, ?found, ?below, ?last, ?complete⟩
    case length => rwa [hhits]
    case falling => rwa [hhits]
    case found =>
      rw [hhits]
      intro p hp
      obtain ⟨hmem, hresolve⟩ := hnew p hp
      exact ⟨⟨b, hb, (mem_candidates.mp (hcand _ hmem)).1⟩, hresolve⟩
    case below =>
      rw [hhits]
      intro p hp
      exact (mem_candidates.mp (hcand _ (hnew p hp).1)).2
    case last =>
      rw [hhits]
      intro d hd
      cases more with
      | false => simp at hd
      | true =>
        obtain ⟨p, hp, rfl⟩ := Option.map_eq_some_iff.mp hd
        obtain ⟨ys, rfl⟩ := List.getLast?_eq_some_iff.mp hp
        refine ⟨by simp, fun p' hp' => ?_⟩
        rw [List.map_append, List.pairwise_append] at hfalling
        rcases List.mem_append.mp hp' with hp' | hp'
        · have hgt := hfalling.2.2 p'.1 (List.mem_map_of_mem hp') p.1 (by simp)
          exact UInt64.le_of_lt hgt
        · rw [List.mem_singleton.mp hp']
          exact UInt64.le_refl _
    case complete =>
      rw [hhits]
      rintro i ⟨b', e, hb', hi, he⟩ hcursor
      obtain rfl := Except.ok.inj (hb.symm.trans hb')
      have hmem : i ∈ candidates b cursor := mem_candidates.mpr ⟨hi, hcursor⟩
      rw [hsplit] at hmem
      rcases List.mem_append.mp hmem with hmem | hmem
      · exact .inl (hvis i hmem e he)
      · -- Something is left over, so the page is full and ends above the rest.
        cases more with
        | false => simp [hrest rfl] at hmem
        | true =>
          have hfull := hmore rfl
          have hne : new ≠ [] := by
            rintro rfl
            simp at hfull
            omega
          obtain ⟨ys, p, rfl⟩ := List.eq_nil_or_concat new |>.resolve_left hne
          refine .inr ⟨p.1, by simp, hcross p.1 ?_ i hmem⟩
          exact (hnew p (by simp)).1

omit [Keccak] [RoaringFormat] in
theorem pageSize_ne_zero (options : QueryOptions) : options.pageSize ≠ 0 := by
  rw [QueryOptions.pageSize]
  generalize min (options.resultsPerPage.getD defaultPageSize) maxPageSize = size
  show (if (1 : UInt64) ≤ size then size else 1) ≠ 0
  split
  · next hle =>
    rintro rfl
    exact absurd hle (by decide)
  · decide

theorem Answers.response (hw : Answers w q) (options : Option UInt64) (cursor : Option UInt64) :
    ∃ r next, runQuery w q ⟨options, cursor.map cursorText⟩ = .ok r ∧
      PageOf w q (QueryOptions.pageSize ⟨options, cursor.map cursorText⟩) cursor r next := by
  obtain ⟨page, hpage, hspec⟩ := hw.page (pageSize_ne_zero ⟨options, cursor.map cursorText⟩) cursor
  refine ⟨⟨page.hits, page.nextCursor.map cursorText⟩, page.nextCursor, ?_, hspec _ rfl rfl⟩
  simp only [runQuery, parseCursor_cursorText, hpage, bind, Except.bind, pure, Except.pure]

end OnePage

/-- A client that starts with a cursor and stops at the first response without one. Each request
    meets its own state and asks for its own page size. -/
inductive Follows (q : Query) :
    List (World × Option UInt64) → Option (List Char) → List QueryResponse → Prop where
  | last {w : World} {size : Option UInt64} {cursor : Option (List Char)} {r : QueryResponse}
      (hrun : runQuery w q ⟨size, cursor⟩ = .ok r) (hend : r.cursor = none) :
      Follows q [(w, size)] cursor [r]
  | next {w : World} {size : Option UInt64} {cursor : Option (List Char)} {r : QueryResponse}
      {visits : List (World × Option UInt64)} {c : List Char} {rs : List QueryResponse}
      (hrun : runQuery w q ⟨size, cursor⟩ = .ok r) (hnext : r.cursor = some c)
      (hrest : Follows q visits (some c) rs) : Follows q ((w, size) :: visits) cursor (r :: rs)

theorem follows_cons_iff {v : World × Option UInt64} {visits : List (World × Option UInt64)}
    {cursor : Option (List Char)} {rs : List QueryResponse} :
    Follows q (v :: visits) cursor rs ↔ ∃ r, runQuery v.1 q ⟨v.2, cursor⟩ = .ok r ∧
      ((r.cursor = none ∧ visits = [] ∧ rs = [r]) ∨
        ∃ c rest, r.cursor = some c ∧ rs = r :: rest ∧ Follows q visits (some c) rest) := by
  constructor
  · intro h
    cases h with
    | last hrun hend => exact ⟨_, hrun, .inl ⟨hend, rfl, rfl⟩⟩
    | next hrun hnext hrest => exact ⟨_, hrun, .inr ⟨_, _, hnext, rfl, hrest⟩⟩
  · rintro ⟨r, hrun, ⟨hend, rfl, rfl⟩ | ⟨c, rest, hnext, rfl, hrest⟩⟩
    · exact .last hrun hend
    · exact .next hrun hnext hrest

/-- The responses are determined by the states and the sizes. -/
theorem Follows.unique {visits extra : List (World × Option UInt64)}
    {cursor : Option (List Char)} {rs rs' : List QueryResponse} (h : Follows q visits cursor rs)
    (h' : Follows q (visits ++ extra) cursor rs') : extra = [] ∧ rs' = rs := by
  induction visits generalizing cursor rs rs' with
  | nil => cases h
  | cons v visits ih =>
    obtain ⟨r, hrun, hcase⟩ := follows_cons_iff.mp h
    obtain ⟨r', hrun', hcase'⟩ := follows_cons_iff.mp h'
    obtain rfl := Except.ok.inj (hrun.symm.trans hrun')
    rcases hcase with ⟨hend, rfl, rfl⟩ | ⟨c, rest, hnext, rfl, hrest⟩ <;>
      rcases hcase' with ⟨hend', hnil, rfl⟩ | ⟨c', rest', hnext', rfl, hrest'⟩
    · exact ⟨hnil, rfl⟩
    · simp [hend] at hnext'
    · simp [hnext] at hend'
    · obtain rfl := Option.some.inj (hnext.symm.trans hnext')
      obtain ⟨hextra, rfl⟩ := ih hrest hrest'
      exact ⟨hextra, rfl⟩

theorem Follows.unique_range {visits : ℕ → World × Option UInt64} {n m : ℕ}
    {cursor : Option (List Char)} {rs rs' : List QueryResponse}
    (h : Follows q ((List.range n).map visits) cursor rs)
    (h' : Follows q ((List.range m).map visits) cursor rs') : m = n ∧ rs' = rs := by
  have hsplit : ∀ {k l : ℕ}, k ≤ l → (List.range l).map visits =
      (List.range k).map visits ++ (List.range (l - k)).map fun i => visits (k + i) := by
    intro k l hkl
    obtain ⟨d, rfl⟩ := Nat.exists_eq_add_of_le hkl
    rw [List.range_add, List.map_append, List.map_map, Nat.add_sub_cancel_left]
    rfl
  rcases Nat.le_total n m with hle | hle
  · rw [hsplit hle] at h'
    obtain ⟨hextra, hrs⟩ := h.unique h'
    have hlen := congrArg List.length hextra
    simp at hlen
    exact ⟨by omega, hrs⟩
  · rw [hsplit hle] at h
    obtain ⟨hextra, hrs⟩ := h'.unique h
    have hlen := congrArg List.length hextra
    simp at hlen
    exact ⟨by omega, hrs.symm⟩

/-- The IDs of all the pages, in the order in which they arrive. -/
def returnedIds (rs : List QueryResponse) : List UInt64 := rs.flatMap fun r => r.hits.map (·.1)

/-- The page size that a request is served with. -/
def servedSize (size : Option UInt64) : UInt64 := QueryOptions.pageSize ⟨size, none⟩

/-- What the pages after a cursor have in common. -/
structure Walk (q : Query) (visits : List (World × Option UInt64)) (cursor : Option UInt64)
    (rs : List QueryResponse) : Prop where
  follows : Follows q visits (cursor.map cursorText) rs
  length : ∀ p ∈ visits.zip rs, p.2.hits.length ≤ (servedSize p.1.2).toNat
  found : ∀ p ∈ visits.zip rs, ∀ x ∈ p.2.hits,
    (∃ b, q.evaluate p.1.1 = .ok b ∧ x.1 ∈ b) ∧ resolveId p.1.1 x.1 = .ok (some x.2)
  falling : (returnedIds rs).Pairwise (· > ·)
  below : ∀ i ∈ returnedIds rs, ∀ c, cursor = some c → i < c
  complete : ∀ i, (∀ v ∈ visits, Matches v.1 q i) → (∀ c, cursor = some c → i < c) →
    i ∈ returnedIds rs

theorem Walk.last {size : Option UInt64} {cursor : Option UInt64} {r : QueryResponse}
    (hrun : runQuery w q ⟨size, cursor.map cursorText⟩ = .ok r)
    (hpage : PageOf w q (servedSize size) cursor r none) : Walk q [(w, size)] cursor [r] where
  follows := .last hrun hpage.text
  length := by simpa using hpage.length
  found := by simpa using fun i e => hpage.found (i, e)
  falling := by simpa [returnedIds] using hpage.falling
  below i hi := by
    obtain ⟨p, hp, rfl⟩ := List.mem_map.mp (show i ∈ r.hits.map (·.1) by simpa [returnedIds] using hi)
    exact hpage.below p hp
  complete i hi hc := by
    rcases hpage.complete i (hi (w, size) List.mem_cons_self) hc with h | ⟨d, hd, -⟩
    · simpa [returnedIds] using h
    · simp at hd

/-- One more page in front: all of it is at or above the cursor that the rest is below. -/
theorem Walk.cons {size : Option UInt64} {cursor : Option UInt64} {r : QueryResponse} {d : UInt64}
    {visits : List (World × Option UInt64)} {rs : List QueryResponse}
    (hrun : runQuery w q ⟨size, cursor.map cursorText⟩ = .ok r)
    (hpage : PageOf w q (servedSize size) cursor r (some d)) (hrest : Walk q visits (some d) rs) :
    Walk q ((w, size) :: visits) cursor (r :: rs) := by
  have hids : returnedIds (r :: rs) = r.hits.map (·.1) ++ returnedIds rs := rfl
  -- The cursor `d` is the last ID of the page: what comes later is below it, whatever the state.
  obtain ⟨hd, hge⟩ := hpage.last d rfl
  refine ⟨.next hrun hpage.text hrest.follows, fun p hp => ?length, fun p hp => ?found, ?falling,
    fun i hi c hc => ?below, fun i hi hc => ?complete⟩
  case length =>
    rcases List.mem_cons.mp hp with rfl | hp
    · exact hpage.length
    · exact hrest.length p hp
  case found =>
    rcases List.mem_cons.mp hp with rfl | hp
    · exact hpage.found
    · exact hrest.found p hp
  case falling =>
    rw [hids, List.pairwise_append]
    refine ⟨hpage.falling, hrest.falling, fun i hi j hj => ?_⟩
    obtain ⟨p, hp, rfl⟩ := List.mem_map.mp hi
    exact UInt64.lt_of_lt_of_le (hrest.below j hj d rfl) (hge p hp)
  case below =>
    have hdc : d < c := by
      obtain ⟨p, hp, rfl⟩ := List.mem_map.mp hd
      exact hpage.below p hp c hc
    rw [hids] at hi
    rcases List.mem_append.mp hi with hi | hi
    · obtain ⟨p, hp, rfl⟩ := List.mem_map.mp hi
      exact hpage.below p hp c hc
    · exact UInt64.lt_trans (hrest.below i hi d rfl) hdc
  case complete =>
    rw [hids, List.mem_append]
    rcases hpage.complete i (hi _ List.mem_cons_self) hc with h | ⟨d', hd', hlt⟩
    · exact .inl h
    · obtain rfl := Option.some.inj hd'
      refine .inr (hrest.complete i (fun v hv => hi v (List.mem_cons_of_mem _ hv)) fun c' hc' => ?_)
      obtain rfl := Option.some.inj hc'
      exact hlt

/-- From a cursor on the walk ends, by induction on the cursor. -/
theorem exists_walk_of_cursor (visits : ℕ → World × Option UInt64)
    (hok : ∀ n, Answers (visits n).1 q) (bound : ℕ) {cursor : Option UInt64}
    (hbound : ∀ c, cursor = some c → c.toNat ≤ bound) (hcursor : cursor ≠ none) :
    ∃ n rs, Walk q ((List.range n).map visits) cursor rs := by
  induction bound using Nat.strong_induction_on generalizing visits cursor with
  | _ bound ih =>
    obtain ⟨r, next, hrun, hpage⟩ := (hok 0).response (visits 0).2 cursor
    cases next with
    | none => exact ⟨1, [r], Walk.last hrun hpage⟩
    | some d =>
      obtain ⟨c, hc⟩ := Option.ne_none_iff_exists'.mp hcursor
      have hlt : d < c := by
        obtain ⟨p, hp, rfl⟩ := List.mem_map.mp (hpage.last d rfl).1
        exact hpage.below p hp c hc
      have hd : d.toNat < bound := lt_of_lt_of_le (UInt64.lt_iff_toNat_lt.mp hlt) (hbound c hc)
      obtain ⟨n, rs, hwalk⟩ := ih d.toNat hd (fun k => visits (k + 1)) (fun k => hok (k + 1))
        (show ∀ c, some d = some c → c.toNat ≤ d.toNat by simp) (by simp)
      refine ⟨n + 1, r :: rs, ?_⟩
      rw [List.range_succ_eq_map, List.map_cons, List.map_map]
      exact Walk.cons hrun hpage hwalk

/-- **Stable pagination**: for any sequence of states and page sizes in which every request is
    answered, following the cursor from the first page ends; each page has at most its size, the
    IDs fall throughout, and every ID that matches and resolves in all the states is among them.
    No other responses follow the cursor. -/
theorem exists_walk (q : Query) (visits : ℕ → World × Option UInt64)
    (hok : ∀ n, Answers (visits n).1 q) :
    ∃ n rs, Walk q ((List.range n).map visits) none rs ∧
      ∀ m rs', Follows q ((List.range m).map visits) none rs' → m = n ∧ rs' = rs := by
  obtain ⟨n, rs, hwalk⟩ : ∃ n rs, Walk q ((List.range n).map visits) none rs := by
    obtain ⟨r, next, hrun, hpage⟩ := (hok 0).response (visits 0).2 none
    cases next with
    | none => exact ⟨1, [r], Walk.last hrun hpage⟩
    | some d =>
      obtain ⟨n, rs, hwalk⟩ := exists_walk_of_cursor (fun k => visits (k + 1))
        (fun k => hok (k + 1)) d.toNat (show ∀ c, some d = some c → c.toNat ≤ d.toNat by simp) (by simp)
      refine ⟨n + 1, r :: rs, ?_⟩
      rw [List.range_succ_eq_map, List.map_cons, List.map_map]
      exact Walk.cons hrun hpage hwalk
  exact ⟨n, rs, hwalk, fun m rs' h => hwalk.follows.unique_range h⟩

end Pages

/-- A state answers where the bitmap of all is read and its IDs resolve. -/
theorem answers_all [Keccak] [RoaringFormat] {w : World} {b : Bitmap}
    (hall : readPairBitmap w annotAll [] = .ok b) (h : ∀ i ∈ b, ∃ r, resolveId w i = .ok r) :
    Answers w .all := ⟨b, hall, h⟩

theorem answers_openRun : Answers (Chain.run DevChain.openRun).world .all := by
  have hall : (annotAll, []) ∈ DevChain.probedPairs := List.mem_cons_self
  refine answers_all (DevChain.facts_openWorld.bitmap _ _ hall) fun i hi => ?_
  obtain ⟨e, he, -⟩ := DevChain.mem_openCarriers.mp hi
  rcases DevChain.openLive_eq_some.mp he with ⟨rfl, -⟩ | ⟨rfl, -⟩
  · exact ⟨_, DevChain.facts_openWorld.first⟩
  · exact ⟨_, DevChain.facts_openWorld.second⟩

theorem answers_tradeRun : Answers (Chain.run DevChain.tradeRun).world .all := by
  refine answers_all DevChain.all_tradeRun.1 fun i hi => ?_
  rw [Finset.mem_singleton.mp hi]
  exact ⟨_, DevChain.all_tradeRun.2⟩

/-- The first page of one entity is read where there are two, later ones after the second entity
    has expired and the first one is sold. -/
def shrinkingVisits : ℕ → World × Option UInt64
  | 0 => ((Chain.run DevChain.openRun).world, some 1)
  | _ + 1 => ((Chain.run DevChain.tradeRun).world, some 1)

theorem exists_walk_shrinkingVisits :
    ∃ n rs, Walk .all ((List.range n).map shrinkingVisits) none rs ∧
      ∀ m rs', Follows .all ((List.range m).map shrinkingVisits) none rs' → m = n ∧ rs' = rs := by
  refine exists_walk .all shrinkingVisits fun k => ?_
  cases k with
  | zero => exact answers_openRun
  | succ k => exact answers_tradeRun

end Arkiv
