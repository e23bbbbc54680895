import Mathlib
import Arkiv.Model.CliAttributes

/-!
# Slices of the command line

Splitting tracks quotes over a whole part, the value parser looks at the first
and the last character behind the first `=`. Every slice lies between characters
of its text, except for a value that is one quote: the quote counts as both.

## Main definitions

- `LoneQuote` — a part whose text value is a single quote
- `safe_splitCliAttributes` — the splitter never panics
- `safe_parseCliAttributes_iff` — when the parser does not panic
-/

namespace Arkiv

open Checked

/-- The name in front of a text value: with a type of texts, or without a type. -/
inductive TextName : List Char → Prop
  | typed {left name ty : List Char} (hsplit : Text.rsplitOnce ':' left = some (name, ty))
      (hty : trimmed ty ∈ stringTypes) (hname : trimmed name ≠ []) : TextName left
  | untyped {left : List Char} (hsplit : Text.rsplitOnce ':' left = none) (hname : left ≠ []) :
      TextName left

theorem not_textName_nil : ¬TextName [] := by
  rintro (⟨hsplit, -, -⟩ | ⟨-, hname⟩)
  · cases hsplit
  · exact hname rfl

/-- A text value that is one quote. -/
def LoneQuote (raw : List Char) : Prop :=
  ∃ left rest, raw = left ++ '=' :: rest ∧ '=' ∉ left ∧ TextName (trimmed left) ∧
    (trimmed rest = [singleQuote] ∨ trimmed rest = [doubleQuote])

section Strings

theorem quote_of_isQuoted {value : List Char} (h : isQuoted value = true) :
    ∃ q, q.utf8Size = 1 ∧ (q = singleQuote ∨ q = doubleQuote) ∧ value.head? = some q ∧
      value.getLast? = some q := by
  simp only [isQuoted, Bool.or_eq_true, Bool.and_eq_true, beq_iff_eq] at h
  obtain ⟨hhead, hlast⟩ | ⟨hhead, hlast⟩ := h
  · exact ⟨singleQuote, by decide, .inl rfl, hhead, hlast⟩
  · exact ⟨doubleQuote, by decide, .inr rfl, hhead, hlast⟩

/-- Behind the opening quote and in front of the closing one there is a place to cut, if they are
    two. -/
theorem slice_quoted {value : List Char} (h : isQuoted value = true) :
    (Text.slice 1 (Text.byteLen value - 1) value).isSome = true ↔
      value ≠ [singleQuote] ∧ value ≠ [doubleQuote] := by
  obtain ⟨q, hsize, hq, hhead, hlast⟩ := quote_of_isQuoted h
  obtain ⟨w, rfl⟩ := List.head?_eq_some_iff.mp hhead
  cases List.eq_nil_or_concat w with
  | inl hnil =>
    subst hnil
    refine iff_of_false ?_ ?_
    · rw [Text.byteLen_cons, hsize, Text.slice, if_neg (by simp)]
      simp
    · obtain rfl | rfl := hq <;> simp
  | inr hconcat =>
    obtain ⟨mid, c, rfl⟩ := hconcat
    obtain rfl : c = q := by
      rw [List.concat_eq_append, ← List.cons_append, List.getLast?_concat] at hlast
      exact Option.some.inj hlast
    refine iff_of_true ?_ ⟨by simp, by simp⟩
    refine Option.isSome_iff_exists.mpr ⟨mid, Text.slice_eq_some.mpr ⟨[c], [c], by simp, ?_, ?_⟩⟩
    · simp [hsize]
    · simp only [List.concat_eq_append, Text.byteLen_append, Text.byteLen_cons, Text.byteLen_nil,
        hsize]
      omega

/-- A quoted value panics when it is one quote. -/
theorem safe_parseCliStringValue {value : List Char} :
    Safe (parseCliStringValue value) ↔ value ≠ [singleQuote] ∧ value ≠ [doubleQuote] := by
  unfold parseCliStringValue
  cases hquoted : isQuoted value with
  | false =>
    refine iff_of_true safe_pure ⟨?_, ?_⟩
    · rintro rfl
      exact absurd hquoted (by decide)
    · rintro rfl
      exact absurd hquoted (by decide)
  | true =>
    rw [if_neg (by simp), ← slice_quoted hquoted, safe_bind, safe_ofOption, and_iff_left_iff_imp]
    intro _ inner _
    refine safe_bind.mpr ⟨safe_ofExcept, fun out _ => ?_⟩
    split
    · exact safe_throw
    · exact safe_pure

end Strings

section Splitting

variable {input : List Char}

/-- The loop cuts its text where characters begin. -/
theorem safe_splitLoop (pre seg : List Char) {rest : List Char} (quote : Option Char) (escaped : Bool)
    (parts : List (List Char)) (hinput : input = pre ++ seg ++ rest) :
    Safe (splitLoop input (Text.byteLen pre) quote escaped parts (Text.byteLen (pre ++ seg)) rest) := by
  -- By induction on what is still to be read: `pre` ends where the current part starts, so every
  -- cut of the loop falls on a boundary of characters.
  induction rest generalizing pre seg quote escaped parts with
  | nil =>
    cases quote with
    | some q => exact safe_throw
    | none =>
      rw [splitLoop]
      have hcut : Text.sliceFrom (Text.byteLen pre) input = some seg := by
        rw [hinput, List.append_nil]
        exact Text.sliceFrom_append
      rw [hcut, ofOption_some, pure_bind]
      dsimp only
      split
      · exact safe_throw
      · exact safe_pure
  | cons ch rest ih =>
    have hgo : ∀ quote escaped, Safe (splitLoop input (Text.byteLen pre) quote escaped parts
        (Text.byteLen (pre ++ seg) + ch.utf8Size) rest) := by
      intro quote escaped
      have hstep := ih pre (seg ++ [ch]) quote escaped parts (by simp [hinput])
      have hlen : Text.byteLen (pre ++ (seg ++ [ch])) = Text.byteLen (pre ++ seg) + ch.utf8Size := by
        simp only [Text.byteLen_append, Text.byteLen_cons, Text.byteLen_nil]
        omega
      rwa [hlen] at hstep
    rw [splitLoop]
    dsimp only
    split_ifs
    · exact hgo quote false
    · exact hgo quote true
    · exact hgo none false
    · exact hgo (some ch) false
    -- A comma closes the part, and the next one starts behind it.
    · have hcut : Text.slice (Text.byteLen pre) (Text.byteLen (pre ++ seg)) input = some seg :=
        Text.slice_eq_some.mpr ⟨pre, ch :: rest, hinput, rfl, rfl⟩
      rw [hcut, ofOption_some, pure_bind]
      split
      · exact safe_throw
      · have hstep := ih (pre ++ seg ++ [ch]) [] quote false (parts ++ [trimmed seg])
          (by simp [hinput])
        have hlen : Text.byteLen (pre ++ seg ++ [ch]) = Text.byteLen (pre ++ seg) + ch.utf8Size := by
          simp only [Text.byteLen_append, Text.byteLen_cons, Text.byteLen_nil]
          omega
        rwa [List.append_nil, hlen] at hstep
    · exact hgo quote false

theorem safe_splitCliAttributes (input : List Char) : Safe (splitCliAttributes input) :=
  safe_splitLoop [] [] none false [] rfl

end Splitting

section Names

/-- A text in front of `=` that is read as the name of a text. -/
theorem splitType_eq_pure {left name : List Char} {ty : Option (List Char)} :
    splitType left = pure (name, ty) ↔
      (∃ n t, Text.rsplitOnce ':' left = some (n, t) ∧ trimmed t ≠ [] ∧ name = trimmed n ∧
        ty = some (trimmed t)) ∨
        (Text.rsplitOnce ':' left = none ∧ name = left ∧ ty = none) := by
  unfold splitType
  cases hsplit : Text.rsplitOnce ':' left with
  | none => simp [pure_inj, eq_comm]
  | some p =>
    obtain ⟨n, t⟩ := p
    dsimp only
    split_ifs with hempty
    · simp [hempty, throw_ne_pure]
    · simp [hempty, pure_inj, eq_comm]

theorem safe_splitType {left : List Char} : Safe (splitType left) := by
  unfold splitType
  split
  · dsimp only
    split
    · exact safe_throw
    · exact safe_pure
  · exact safe_pure

/-- The names of texts are what the split gives with a type of texts or without a type. -/
theorem textName_iff {left : List Char} (hleft : left ≠ []) :
    TextName left ↔ ∃ name ty, splitType left = pure (name, ty) ∧ name ≠ [] ∧
      ∀ t ∈ ty, t ∈ stringTypes := by
  constructor
  · rintro (⟨hsplit, hty, hname⟩ | ⟨hsplit, hname⟩)
    · refine ⟨_, _, splitType_eq_pure.mpr (.inl ⟨_, _, hsplit, ?_, rfl, rfl⟩), hname, ?_⟩
      · intro hempty
        rw [hempty] at hty
        exact absurd hty (by decide)
      · rintro t ht
        rwa [← Option.some.inj ht]
    · exact ⟨_, _, splitType_eq_pure.mpr (.inr ⟨hsplit, rfl, rfl⟩), hname, by simp⟩
  · rintro ⟨name, ty, hread, hname, hty⟩
    obtain ⟨n, t, hsplit, -, rfl, rfl⟩ | ⟨hsplit, rfl, rfl⟩ := splitType_eq_pure.mp hread
    · exact .typed hsplit (hty _ rfl) hname
    · exact .untyped hsplit hleft

/-- The first `=` is in one place. -/
theorem loneQuote_append {left rest : List Char} (hfree : '=' ∉ left) :
    LoneQuote (left ++ '=' :: rest) ↔ TextName (trimmed left) ∧
      (trimmed rest = [singleQuote] ∨ trimmed rest = [doubleQuote]) := by
  constructor
  · rintro ⟨left', rest', heq, hfree', h⟩
    have hfind := Text.find_eq_some.mpr ⟨left, rest, rfl, hfree, rfl⟩
    rw [Text.find_eq_some.mpr ⟨left', rest', heq, hfree', rfl⟩] at hfind
    have hcut : Text.splitAt (Text.byteLen left') (left ++ '=' :: rest) =
        some (left, '=' :: rest) := Text.splitAt_eq_some.mpr ⟨rfl, (Option.some.inj hfind).symm⟩
    rw [Text.splitAt_eq_some.mpr ⟨heq, rfl⟩] at hcut
    obtain ⟨rfl, hrest⟩ := Prod.mk.inj (Option.some.inj hcut)
    rwa [← (List.cons.inj hrest).2]
  · intro h
    exact ⟨left, rest, rfl, hfree, h⟩

end Names

section Parts

variable [ParseWords]

theorem safe_parseCliUintValue {value : List Char} : Safe (parseCliUintValue value) := by
  unfold parseCliUintValue
  split
  · exact safe_pure
  · exact safe_throw

theorem safe_parseCliEntityKeyValue {value : List Char} : Safe (parseCliEntityKeyValue value) := by
  unfold parseCliEntityKeyValue
  split
  · exact safe_pure
  · exact safe_throw

/-- Only text values are sliced. -/
theorem safe_parseTyped {name value : List Char} {ty : Option (List Char)} :
    Safe (parseTyped name value ty) ↔
      ((∀ t ∈ ty, t ∈ stringTypes) → value ≠ [singleQuote] ∧ value ≠ [doubleQuote]) := by
  cases ty with
  | some t =>
    simp only [Option.mem_def, Option.some.injEq, forall_eq', parseTyped]
    split_ifs with hstring huint hkey
    · rw [safe_map, safe_parseCliStringValue]
      exact ⟨fun h _ => h, fun h => h hstring⟩
    · exact iff_of_true (safe_map.mpr safe_parseCliUintValue) fun h => absurd h hstring
    · exact iff_of_true (safe_map.mpr safe_parseCliEntityKeyValue) fun h => absurd h hstring
    · exact iff_of_true safe_throw fun h => absurd h hstring
  | none =>
    simp only [Option.mem_def, reduceCtorEq, false_implies, implies_true, true_implies, parseTyped]
    have hplain : isQuoted value ≠ true → value ≠ [singleQuote] ∧ value ≠ [doubleQuote] := by
      intro hquoted
      constructor
      · rintro rfl
        exact hquoted (by decide)
      · rintro rfl
        exact hquoted (by decide)
    split_ifs with hquoted hkey
    · rw [safe_map, safe_parseCliStringValue]
    · exact iff_of_true (safe_map.mpr safe_parseCliEntityKeyValue) (hplain hquoted)
    · exact iff_of_true (safe_map.mpr (safe_mapError.mpr safe_parseCliUintValue)) (hplain hquoted)

/-- **One part** panics when its text value is one quote. -/
theorem safe_parseCliAttribute {raw : List Char} :
    Safe (parseCliAttribute raw) ↔ ¬LoneQuote raw := by
  unfold parseCliAttribute
  cases hfind : Text.find '=' raw with
  | none =>
    refine iff_of_true safe_throw ?_
    rintro ⟨left, rest, hraw, hfree, -⟩
    rw [Text.find_eq_some.mpr ⟨left, rest, hraw, hfree, rfl⟩] at hfind
    cases hfind
  | some eq =>
    obtain ⟨left, rest, rfl, hfree, rfl⟩ := Text.find_eq_some.mp hfind
    have hfrom : Text.sliceFrom (Text.byteLen left + 1) (left ++ '=' :: rest) = some rest := by
      have hcut := Text.sliceFrom_append (a := left ++ ['=']) (b := rest)
      rwa [Text.byteLen_append, List.append_assoc] at hcut
    -- The text is cut before and behind its first `=`.
    rw [loneQuote_append hfree]
    simp only [Text.sliceTo_append, hfrom, ofOption_some, pure_bind, throw_bind]
    split_ifs with hleft hvalue
    · -- nothing names a text
      refine iff_of_true safe_throw fun h => not_textName_nil ?_
      rw [← hleft]
      exact h.1
    · refine iff_of_true safe_throw ?_
      simp [hvalue]
    · rw [safe_bind, and_iff_right safe_splitType, textName_iff hleft]
      constructor
      · rintro hsafe ⟨⟨name, ty, hread, hname, hty⟩, hlone⟩
        have htyped := hsafe _ hread
        rw [if_neg hname, safe_bind, safe_parseTyped] at htyped
        obtain ⟨hsingle, hdouble⟩ := htyped.1 hty
        exact hlone.elim hsingle hdouble
      · rintro hnot ⟨name, ty⟩ hread
        dsimp only
        split_ifs with hname
        · exact safe_throw
        · refine safe_bind.mpr ⟨safe_parseTyped.mpr fun hty => ?_, fun _ _ => safe_pure⟩
          rw [← not_or]
          exact fun hlone => hnot ⟨⟨name, ty, hread, hname, hty⟩, hlone⟩

/-- The parts are read in order, and an error ends the loop. -/
theorem safe_parseParts {parts : List (List Char)} (idx : ℕ) :
    Safe (parseParts idx parts) ↔ ∀ before part after, parts = before ++ part :: after →
      (∀ p ∈ before, ∃ attr, parseCliAttribute (trimmed p) = pure attr) →
      ¬LoneQuote (trimmed part) := by
  induction parts generalizing idx with
  | nil =>
    refine iff_of_true safe_pure fun before part after hparts => ?_
    simp at hparts
  | cons raw parts ih =>
    rw [parseParts, safe_bind, safe_mapError, safe_parseCliAttribute]
    constructor
    · rintro ⟨hraw, hrest⟩ before part after hparts hread
      cases before with
      | nil =>
        obtain ⟨rfl, -⟩ := List.cons.inj hparts
        exact hraw
      | cons p before =>
        obtain ⟨rfl, htail⟩ := List.cons.inj hparts
        obtain ⟨attr, hattr⟩ := hread _ List.mem_cons_self
        have hsafe := hrest attr (mapError_eq_pure.mpr hattr)
        rw [safe_bind, ih] at hsafe
        exact hsafe.1 before part after htail fun p hp => hread p (List.mem_cons_of_mem _ hp)
    · intro h
      refine ⟨h [] raw parts rfl (by simp), fun attr hattr => ?_⟩
      refine safe_bind.mpr ⟨(ih _).mpr fun before part after hparts hread => ?_, ?_⟩
      · refine h (raw :: before) part after (by rw [hparts, List.cons_append]) ?_
        intro p hp
        obtain rfl | hp := List.mem_cons.mp hp
        · exact ⟨attr, mapError_eq_pure.mp hattr⟩
        · exact hread p hp
      · exact fun _ _ => safe_pure

/-- **The argument** is read without a panic exactly when the loop reaches no part whose text value
    is one quote. -/
theorem safe_parseCliAttributes_iff {input : List Char} :
    Safe (parseCliAttributes input) ↔ ∀ before part after,
      splitCliAttributes (trimmed input) = pure (before ++ part :: after) →
      (∀ p ∈ before, ∃ attr, parseCliAttribute (trimmed p) = pure attr) →
      ¬LoneQuote (trimmed part) := by
  unfold parseCliAttributes
  dsimp only
  split_ifs with hempty
  · refine iff_of_true safe_pure fun before part after hparts => ?_
    rw [hempty] at hparts
    exact absurd hparts throw_ne_pure
  · rw [safe_bind, and_iff_right (safe_splitCliAttributes _)]
    simp only [safe_parseParts]
    constructor
    · intro h before part after hparts
      exact h _ hparts before part after rfl
    · rintro h parts hparts before part after rfl
      exact h before part after hparts

end Parts

/-- In `'='` the quotes of the splitter close behind the `=`, and the value is the second one. -/
theorem not_safe_parseCliAttributes :
    ¬∀ [ParseWords] (input : List Char), Safe (parseCliAttributes input) := by
  intro h
  have hpanic := @h ⟨fun _ => .error "invalid digit", fun _ => .error "invalid string length"⟩
    [singleQuote, '=', singleQuote]
  rw [Safe] at hpanic
  exact absurd hpanic (by decide)

end Arkiv
