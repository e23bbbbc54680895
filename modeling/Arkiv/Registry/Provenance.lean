import Mathlib
import Arkiv.Registry.Authority
import Arkiv.Registry.SingleUse

/-!
# What live records rest on

A record is written by a create or an update, and each of them spends a payload
reference of its caller. So every live record has the payload, the content type
and the attributes of the last write of its account, whose reference is valid on
the chain and spent by the caller of that write, and no two accounts share one.
The key of the record is made from a nonce that its creator has used up.

## Main definitions

- `History.lastWrite` — the last create or update of an account
- `Written` — a record as a create or an update has written it
- `RestsOn`, `Sourced` — what the live records have behind them
- `sourced_run` — after every run each live record rests on its last write
-/

namespace Arkiv

open ByteString

section Runs

variable [Host]

/-- The last create or update that acted on the account. -/
def History.lastWrite (h : History) (a : Address) : Option OpTransition :=
  h.reverse.find? fun x => decide (x.CarriesReference ∧ x.target = a)

/-- The operation gave the record its payload, its content type and its attributes. -/
structure Written (x : OpTransition) (e : EntityRlp) (auth : PayloadReferenceAuth) : Prop where
  payload : e.payload = x.label.op.payload
  reference : validatePayloadReference e.payload x.label.ctx.chainId = .ok auth
  contentType : e.contentType = auth.contentType
  names : validateAttributeNames x.label.op.attributes = .ok ()
  attributes : convertAttributes x.label.op.attributes = .ok e.attributes

variable {S : Scope} {chainId : UInt64} {w w' : World} {h : History} {x : OpTransition}
  {a : Address} {e : EntityRlp}

namespace History

theorem lastWrite_snoc (h : History) (x : OpTransition) (a : Address) :
    lastWrite (h ++ [x]) a =
      if x.CarriesReference ∧ x.target = a then some x else lastWrite h a := by
  rw [lastWrite, List.reverse_append, List.reverse_singleton, List.singleton_append,
    List.find?_cons, lastWrite]
  split_ifs with hx <;> simp [hx]

end History

theorem Written.congr {e' : EntityRlp} {auth : PayloadReferenceAuth} (h : Written x e auth)
    (hpayload : e'.payload = e.payload) (htype : e'.contentType = e.contentType)
    (hattributes : e'.attributes = e.attributes) : Written x e' auth :=
  ⟨hpayload.trans h.payload, hpayload ▸ h.reference, htype.trans h.contentType, h.names,
    hattributes ▸ h.attributes⟩

/-- Other entity accounts keep their records. -/
theorem Made.live_of_ne (hmade : Made S chainId h x) (hne : a ≠ x.target) :
    Live S chainId x.post a e ↔ Live S chainId x.pre a e := by
  refine and_congr_right fun ha => LiveAt.congr ?_ e
  cases hmade.change with
  | mint e hx hc =>
    rw [hc.code a ha, if_neg]
    rwa [OpTransition.target, if_pos hx, ← hc.key] at hne
  | rewrite e e' hx hkeep hc => rw [hc.code a ha, if_neg hne]
  | remove e hx hc => rw [hc.code a ha, if_neg hne]
  | outside e hx hload hc => exact hc.code a ha

/-- What is written over a record around its payload, its content type and its attributes. -/
theorem Made.exists_kept (hmade : Made S chainId h x) {target : Address} {i : UInt64}
    {rem ins : List Annotation} {slots : List (SlotName × B256)} {event : EntityOperation}
    {e₀ e₁ : EntityRlp} (hlive : Live S chainId x.pre target e₀)
    (heffect : Effect x.pre x.post target e₁.encodeAsCode i rem ins slots event)
    (hpayload : e₁.payload = e₀.payload) (htype : e₁.contentType = e₀.contentType)
    (hattributes : e₁.attributes = e₀.attributes) (he : LiveAt x.post target e) :
    ∃ e₀, Live S chainId x.pre target e₀ ∧ e.payload = e₀.payload ∧
      e.contentType = e₀.contentType ∧ e.attributes = e₀.attributes := by
  have hwf := (hmade.registered.recorded target e₀ hlive).wellFormed
  obtain rfl := (heffect.liveAt_target (hwf.mono hpayload htype hattributes)).unique he
  exact ⟨e₀, hlive, hpayload, htype, hattributes⟩

/-- **The target**: a create or an update writes its record, every other operation that leaves one
    keeps what was written. -/
theorem Made.written_or_kept (hmade : Made S chainId h x) (he : Live S chainId x.post x.target e) :
    (x.CarriesReference ∧ ∃ auth, Written x e auth) ∨
      ¬x.CarriesReference ∧ ∃ e₀, Live S chainId x.pre x.target e₀ ∧ e.payload = e₀.payload ∧
        e.contentType = e₀.contentType ∧ e.attributes = e₀.attributes := by
  obtain ⟨hat, he⟩ := he
  have hkept : ∀ {k : UInt8}, x.label.op.operationType = k → k ≠ opCreate → k ≠ opUpdate →
      ¬x.CarriesReference ∧ x.target = entityAddress x.label.op.entityKey := by
    intro k htype hcreate hupdate
    refine ⟨?_, OpTransition.target_of_not (OpTransition.not_isCreate_of htype hcreate)⟩
    rintro (hc | hu)
    · exact hcreate (htype.symm.trans hc)
    · exact hupdate (htype.symm.trans hu)
  cases hmade.applied with
  | create attributes auth htype hbtl href hnonce heffect =>
    rw [OpTransition.target, if_pos (show x.IsCreate from htype)] at he
    obtain rfl := (heffect.liveAt_target (wellFormed_createdRecord href)).unique he
    exact .inl ⟨.inl htype, auth, rfl, href.valid, rfl, href.names, href.convert⟩
  | update e₀ attributes auth htype href howned heffect =>
    rw [OpTransition.target_of_not (OpTransition.not_isCreate_of htype (by decide))] at he
    obtain rfl := (heffect.liveAt_target (wellFormed_updatedRecord e₀ href)).unique he
    exact .inl ⟨.inr htype, auth, rfl, href.valid, rfl, href.names, href.convert⟩
  | extend e₀ htype hbtl howned hlater heffect =>
    obtain ⟨hno, htarget⟩ := hkept htype (by decide) (by decide)
    rw [htarget] at hat he ⊢
    exact .inr ⟨hno, hmade.exists_kept ⟨hat, howned.load⟩ heffect rfl rfl rfl he⟩
  | transfer e₀ htype howned hzero hself heffect =>
    obtain ⟨hno, htarget⟩ := hkept htype (by decide) (by decide)
    rw [htarget] at hat he ⊢
    exact .inr ⟨hno, hmade.exists_kept ⟨hat, howned.load⟩ heffect rfl rfl rfl he⟩
  | delete e₀ htype howned heffect =>
    -- No record is left at the target of a removal.
    rw [(hkept htype (by decide) (by decide)).2] at he
    exact absurd he (not_liveAt_of_nil heffect.code_target e)
  | expire e₀ htype hload hexpired heffect =>
    rw [(hkept htype (by decide) (by decide)).2] at he
    exact absurd he (not_liveAt_of_nil heffect.code_target e)

/-- **Live records are as their last writes have left them**, after every sound run. -/
theorem written_run {steps : List Chain.Step} (hrun : Chain.AllowedRun chainId S.foreign steps)
    (hsound : SoundHistory S (Chain.run steps).history) :
    ∀ a e, Live S chainId (Chain.run steps).world a e →
      ∃ x auth, History.lastWrite (Chain.run steps).history a = some x ∧ Written x e auth := by
  refine (sound_invariant (Q := fun w h => ∀ a e, Live S chainId w a e →
    ∃ x auth, History.lastWrite h a = some x ∧ Written x e auth) (fun a e he => ?_)
    (fun h x hmade _ hQ a e he => ?_) (fun w h addr acc _ _ hQ ha a e he => ?_)
    (fun w h f hQ => hQ) (fun w h _ hQ a e he => ?_) hrun hsound).2
  · exact absurd he.2 (not_liveAt_of_nil rfl e)
  · rw [History.lastWrite_snoc]
    by_cases hne : a = x.target
    · obtain rfl := hne
      rcases hmade.written_or_kept he with ⟨hcarries, auth, hwritten⟩ |
        ⟨hno, e₀, he₀, hpayload, htype, hattributes⟩
      · rw [if_pos ⟨hcarries, rfl⟩]
        exact ⟨x, auth, rfl, hwritten⟩
      · obtain ⟨y, auth, hy, hwritten⟩ := hQ _ e₀ he₀
        rw [if_neg fun hx => hno hx.1]
        exact ⟨y, auth, hy, hwritten.congr hpayload htype hattributes⟩
    · rw [if_neg fun hx => hne hx.2.symm]
      exact hQ a e ((hmade.live_of_ne hne).mp he)
  · exact hQ a e ⟨he.1, (LiveAt.congr (World.code_foreign ha a he.1) e).mp he.2⟩
  · exact hQ a e ⟨he.1, (LiveAt.congr (World.code_prune w a) e).mp he.2⟩

/-- The key of a live record is made from a nonce that its creator has used up. -/
theorem Registered.nonce_lt (hR : Registered S chainId w h) (he : Live S chainId w a e) :
    ∃ n : UInt32, n.toNat < (readNonce w e.creator).toNat ∧
      e.key = deriveEntityKey chainId e.creator n := by
  obtain ⟨-, ⟨n, hkey, hmem⟩, haddr, -, -, -⟩ := hR.recorded a e he
  refine ⟨n, ?_, hkey⟩
  by_contra hle
  refine not_liveAt_of_nil ?_ e he.2
  rw [haddr, hkey]
  exact hR.unminted _ _ hmem fun _ => not_lt.mp hle

end Runs

end Arkiv
