import Mathlib
import Arkiv.Registry.Preservation

/-!
# Where code is

In a sound run only derived accounts and the accounts of others ever hold code.

## Main definitions

- `World.SupportedOn` — code at derived and foreign addresses only
- `Made.touched` — the accounts that an accepted operation may touch
- `supported_run` — code stays there in every run
-/

namespace Arkiv

open ByteString

variable [Host] {S : Scope} {chainId : UInt64} {w w' : World} {h : History} {x : OpTransition}

/-- An address in the scope: derived from one of its preimages, or of somebody else. -/
def Scope.Contains (S : Scope) (a : Address) : Prop :=
  (∃ p ∈ S.accounts, a = derivedAddress p) ∨ a ∈ S.foreign

/-- Only addresses in the scope have code. -/
def World.SupportedOn (w : World) (S : Scope) : Prop := ∀ a, w.code a ≠ [] → S.Contains a

theorem Scope.contains_of_mem_indexAccounts {as : List Annotation} (has : S.HasAccounts as)
    {a : Address} (ha : a ∈ indexAccounts as) : S.Contains a := by
  obtain ⟨y, hy, rfl | rfl⟩ := ha
  · exact .inl ⟨_, (has y hy).1, rfl⟩
  · exact .inl ⟨_, (has y hy).2, rfl⟩

theorem Effect.code_of_ne {target : Address} {code : Bytes} {i : UInt64} {rem ins : List Annotation}
    {slots : List (SlotName × B256)} {event : EntityOperation}
    (heffect : Effect w w' target code i rem ins slots event) {a : Address} (hne : a ≠ target)
    (ha : a ∉ indexAccounts (rem ++ ins)) : w'.code a = w.code a := by
  obtain ⟨u, v, hu, hedits, hcode⟩ := heffect.edits
  rw [hcode, if_neg hne, hedits.frame.code a ha, hu]

/-- An accepted operation touches its target and posting accounts of the scope. -/
theorem Made.touched (hmade : Made S chainId h x) :
    ∃ as, S.HasAccounts as ∧
      ∀ a, a ≠ x.target → a ∉ indexAccounts as → x.post.code a = x.pre.code a := by
  have hS := hmade.sound.accounts
  -- What an operation takes out of the index is in the record before it or what it posts.
  cases hmade.applied with
  | create attributes auth htype hbtl href hnonce heffect =>
    refine ⟨_, fun y hy => hS.posts y (.create htype href.convert href.valid hy),
      fun a hne ha => heffect.code_of_ne ?_ ha⟩
    rwa [OpTransition.target, if_pos (show x.IsCreate from htype)] at hne
  | update e attributes auth htype href howned heffect =>
    have hnc : ¬x.IsCreate := OpTransition.not_isCreate_of htype (by decide)
    refine ⟨_, hS.hasAccounts hnc howned.load fun y hy => ?_, fun a hne ha =>
      heffect.code_of_ne (OpTransition.target_of_not hnc ▸ hne) ha⟩
    rcases List.mem_append.mp hy with hy | hy
    · exact .inl (droppedAnnotations_subset hy)
    · exact posts_updatedRecord htype href (droppedAnnotations_subset hy)
  | extend e htype hbtl howned hlater heffect =>
    have hnc : ¬x.IsCreate := OpTransition.not_isCreate_of htype (by decide)
    refine ⟨_, hS.hasAccounts hnc howned.load fun y hy => ?_, fun a hne ha =>
      heffect.code_of_ne (OpTransition.target_of_not hnc ▸ hne) ha⟩
    rcases List.mem_append.mp hy with hy | hy
    · rw [List.mem_singleton.mp hy]
      exact .inl (expiration_mem_annotations e)
    · rw [List.mem_singleton.mp hy]
      exact .inr (.extend htype)
  | transfer e htype howned hzero hself heffect =>
    have hnc : ¬x.IsCreate := OpTransition.not_isCreate_of htype (by decide)
    refine ⟨_, hS.hasAccounts hnc howned.load fun y hy => ?_, fun a hne ha =>
      heffect.code_of_ne (OpTransition.target_of_not hnc ▸ hne) ha⟩
    rcases List.mem_append.mp hy with hy | hy
    · rw [List.mem_singleton.mp hy]
      exact .inl (owner_mem_annotations e)
    · rw [List.mem_singleton.mp hy]
      exact .inr (.transfer htype)
  | delete e htype howned heffect =>
    have hnc : ¬x.IsCreate := OpTransition.not_isCreate_of htype (by decide)
    refine ⟨_, hS.hasAccounts hnc howned.load fun y hy => ?_, fun a hne ha =>
      heffect.code_of_ne (OpTransition.target_of_not hnc ▸ hne) ha⟩
    rw [List.append_nil] at hy
    refine (mem_deletedAnnotations hy).imp_right ?_
    rintro rfl
    exact .remove (.inl htype)
  | expire e htype hload hexpired heffect =>
    have hnc : ¬x.IsCreate := OpTransition.not_isCreate_of htype (by decide)
    refine ⟨_, hS.hasAccounts hnc hload fun y hy => ?_, fun a hne ha =>
      heffect.code_of_ne (OpTransition.target_of_not hnc ▸ hne) ha⟩
    rw [List.append_nil] at hy
    refine (mem_deletedAnnotations hy).imp_right ?_
    rintro rfl
    exact .remove (.inr htype)

theorem Made.target_contained (hmade : Made S chainId h x) (hw : x.pre.SupportedOn S) :
    S.Contains x.target := by
  have hloaded : ∀ e, LiveAt x.pre x.target e → S.Contains x.target := fun e he =>
    hw _ fun hnil => not_liveAt_of_nil hnil e he
  cases hmade.change with
  | mint e hx hc =>
    rw [OpTransition.target, if_pos hx]
    exact .inl ⟨_, hmade.sound.accounts.mint hx, rfl⟩
  | rewrite e e' hx hkeep hc => exact hloaded e hc.live.2
  | remove e hx hc => exact hloaded e hc.live.2
  | outside e hx hload hc => exact hloaded e hload

/-- **Code stays at addresses in the scope**, before every accepted operation and at the end. -/
theorem supported_run {steps : List Chain.Step} (hrun : Chain.AllowedRun chainId S.foreign steps)
    (hsound : SoundHistory S (Chain.run steps).history) :
    (Chain.run steps).world.SupportedOn S ∧
      ∀ x ∈ (Chain.run steps).history, x.pre.SupportedOn S := by
  refine (sound_invariant (Q := fun w h => w.SupportedOn S ∧
    ∀ x ∈ h, x.pre.SupportedOn S) ?_ (fun h x hmade _ hQ => ?_)
    (fun w h addr acc _ _ hQ ha => ?_) (fun w h f hQ => hQ) (fun w h _ hQ => ?_) hrun hsound).2
  · exact ⟨fun a ha => absurd rfl ha, by simp⟩
  · obtain ⟨hw, hh⟩ := hQ
    refine ⟨fun a ha => ?_, fun y hy => ?_⟩
    · obtain ⟨as, has, hsame⟩ := hmade.touched
      by_cases htarget : a = x.target
      · rw [htarget]
        exact hmade.target_contained hw
      · by_cases hindex : a ∈ indexAccounts as
        · exact Scope.contains_of_mem_indexAccounts has hindex
        · rw [hsame a htarget hindex] at ha
          exact hw a ha
    · rcases List.mem_append.mp hy with hy | hy
      · exact hh y hy
      · rw [List.mem_singleton.mp hy]
        exact hw
  · refine ⟨fun a hcode => ?_, hQ.2⟩
    by_cases heq : a = addr
    · exact .inr (heq ▸ ha)
    · rw [World.code_setAccount_of_ne heq] at hcode
      exact hQ.1 a hcode
  · refine ⟨fun a hcode => ?_, hQ.2⟩
    rw [World.code_prune] at hcode
    exact hQ.1 a hcode

end Arkiv
