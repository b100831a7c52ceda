import OpenSesame.Theorems.Contract.CobuildShares

/-! # The rewards of `cobuild.js`

A reward of the DPoS contract is divided among the pledged shares, and the initiator gets what is
left over. -/

namespace OpenSesame
open Protocol ScriptUtils

namespace Cobuild
variable {h : Host} {m : Call} {last s t : Cobuild}

/-! ### While the shares are pledged -/

/-- Whoever accepts shares has pledged what it has, and while the DPoS contract pays rewards nobody calls. -/
def Careful (s : Cobuild) (m : Call) : Prop :=
  Quiet m ∧ (m.input.isAccept = true → ∀ own ∈ s.cobuilders.lookup m.txSender, own.pledged = true)

instance (s : Cobuild) : DecidablePred (Careful s) := fun m =>
  have : Decidable (∀ own ∈ s.cobuilders.lookup m.txSender, own.pledged = true) := Option.decidableForallMem ..
  inferInstanceAs (Decidable (Quiet m ∧ _))

/-- The recorded numbers of shares are right, and there are pledged shares once the contract has applied. -/
structure Live (s : Cobuild) : Prop where
  books : ∃ reserve, Books reserve s
  unit : 0 < s.cfg.unit.toInt
  raise : 0 < s.cfg.raiseShares
  pledged : s.states.applied = true → 0 < s.states.pledgedShares.toInt

theorem Live.of_kept {reserve : ℤ} (hs : Live s) (hbooks : Books reserve t) (hcfg : t.cfg = s.cfg)
    (hstates : t.states = s.states) : Live t :=
  ⟨⟨reserve, hbooks⟩, by rw [hcfg]; exact hs.unit, by rw [hcfg]; exact hs.raise, by rw [hstates]; exact hs.pledged⟩

theorem Live.credited (hs : Live s) (balance : Int64) (requests : List (Int64 × Request)) :
    Live { s with balance := balance, requests := requests } := by
  obtain ⟨reserve, hbooks⟩ := hs.books
  have hcredited : Books (reserve + balance.toInt - s.balance.toInt)
      { s with balance := balance, requests := requests } := by
    refine hbooks.of_same rfl rfl (fun _ => rfl) ?_
    dsimp only
    omega
  exact hs.of_kept hcredited rfl rfl

theorem Live.released (hs : Live s) : Live (releaseAll s) := by
  obtain ⟨reserve, hbooks⟩ := hs.books
  refine ⟨⟨reserve - s.cfg.unit.toInt * s.states.pledgedShares.toInt, ?_⟩, hs.unit, hs.raise, nofun⟩
  refine Books.released ?_ le_rfl
  rwa [sub_add_cancel]

variable {amount : Int64}

theorem Live.called {input : Request} (hs : Live s) (hquiet : Quiet m)
    (hcall : callDPOS h m last amount input s = some t) : Live t := by
  obtain ⟨answer, s₁, hanswer, ⟨balance, -, rfl⟩, hcall⟩ := callDPOS_cases hcall
  have hpaid := hs.credited balance (s.requests ++ [(amount, input)])
  cases input with
  | extract =>
    obtain ⟨hkept, hrewards⟩ := replies_spec (hquiet answer hanswer) hcall
    obtain ⟨reserve, hbooks⟩ := hpaid.books
    exact hpaid.of_kept (hrewards reserve hbooks) hkept.cfg hkept.states
  | withdraw role =>
    rcases answered_withdraw hcall with rfl | ⟨refund, -, hreply⟩
    · exact hpaid
    · obtain ⟨balance', -, -, rfl | rfl⟩ := reply_refund hreply
      · exact hpaid.credited balance' _
      · exact (hpaid.credited balance' _).released
  | _ =>
    cases hcall
    exact hpaid

theorem Live.pledgedAll (hs : Live s) (hall : 0 < s.states.allShares.toInt) : Live (pledgeAll s) := by
  obtain ⟨reserve, hbooks⟩ := hs.books
  exact ⟨⟨_, hbooks.pledgedAll le_rfl⟩, hs.unit, hs.raise, fun _ => hall⟩

theorem nonneg_of_callDPOS {input : Request} (hcall : callDPOS h m last amount input s = some t) :
    0 ≤ amount.toInt := by
  obtain ⟨s₁, hpay, -⟩ := Option.bind_eq_some_iff.mp hcall
  obtain ⟨-, hpay⟩ := of_guard hpay
  obtain ⟨balance, hspend, -⟩ := Option.bind_eq_some_iff.mp hpay
  exact (spend_toInt hspend).1

theorem Step.live (hstep : Step h (callDPOS h m last) m s t) (hcareful : Careful s m) (hs : Live s) : Live t := by
  obtain ⟨hquiet, hcareful⟩ := hcareful
  obtain ⟨reserve, hbooks⟩ := hs.books
  have hcover (n : ℤ) : Books (reserve - n + n) s := by rwa [sub_add_cancel]
  cases hstep with
  | idle => exact hs
  | subscribe hprice hentry hall =>
    exact ⟨⟨_, (hcover m.coinAmount.toInt).subscribed hprice hentry hall⟩, hs.unit, hs.raise, hs.pledged⟩
  | revoke hstake hpledged hall hprice hamount hpaid =>
    have hrevoked := hbooks.revoked hstake hpledged hall hprice hamount hpaid
    obtain ⟨balance, -, rfl⟩ := hpaid
    exact ⟨⟨_, hrevoked⟩, hs.unit, hs.raise, hs.pledged⟩
  | coApply happlied hraise hamount hcall hinput =>
    refine Live.called (Live.pledgedAll ?_ ?_) hquiet hcall
    · exact ⟨⟨reserve, hbooks.unit, hbooks.idle, hbooks.all, hbooks.pledged, hbooks.covered⟩, hs.unit, hs.raise,
        hs.pledged⟩
    · exact hs.raise.trans_le hraise
  | coAppend happlied hshares hamount hcall =>
    refine (hs.pledgedAll ?_).called hquiet hcall
    -- the coins of the shares that are added are paid, so these are not less than none
    have hpaid := nonneg_of_callDPOS hcall
    rw [int64Mul_toInt hs.unit.le hamount, int64Sub_toInt hshares] at hpaid
    have hmore := nonneg_of_mul_nonneg_right hpaid hs.unit
    have hpledged := hs.pledged happlied
    omega
  | ask hcall => exact hs.called hquiet hcall
  | transfer | disband | poll =>
    exact ⟨⟨reserve, hbooks.unit, hbooks.idle, hbooks.all, hbooks.pledged, hbooks.covered⟩, hs.unit, hs.raise,
      hs.pledged⟩
  | accept hinput hr hpledged hprice htake hentry hamount hpaid =>
    have haccept : m.input.isAccept = true := by rw [hinput]; rfl
    obtain ⟨htaken₁, htaken, hkept⟩ := (hcover m.coinAmount.toInt).taken hquiet hr hpledged (hcareful haccept) htake
    have haccepted := htaken₁.accepted htaken hentry hamount hpaid
    obtain ⟨balance, -, rfl⟩ := hpaid
    exact hs.of_kept haccepted hkept.cfg hkept.states
  | coExtract hcall hpay =>
    have hlive := hs.called hquiet hcall
    obtain ⟨reserve', hbooks'⟩ := hlive.books
    have hpaid := hbooks'.extracted hpay
    obtain ⟨c, balance, rfl, -⟩ := extracted_spec hpay
    exact hlive.of_kept hpaid rfl rfl
  | withdraw _ _ hcall | pollWithdraw _ _ _ _ hcall =>
    refine Live.called ?_ hquiet hcall
    exact ⟨⟨reserve, hbooks.unit, hbooks.idle, hbooks.all, hbooks.pledged, hbooks.covered⟩, hs.unit, hs.raise,
      hs.pledged⟩
  | reward hrun =>
    obtain ⟨hkept, -⟩ := distribute_spec hrun
    exact hs.of_kept ((hcover m.coinAmount.toInt).distribute hrun) hkept.cfg hkept.states
  | refund => exact hs.released

theorem live_init {a : Address} {coinAmount baseReserve : Int64} {params : Params}
    (hinit : init h a coinAmount baseReserve params = some s) : Live s := by
  have hbooks := books_init hinit
  obtain ⟨odd, -, hinit⟩ := Option.bind_eq_some_iff.mp hinit
  obtain ⟨⟨-, hunit⟩, hinit⟩ := of_guard hinit
  obtain ⟨hshares, hinit⟩ := of_guard hinit
  obtain ⟨fund, -, hinit⟩ := Option.bind_eq_some_iff.mp hinit
  obtain ⟨-, hinit⟩ := of_guard hinit
  obtain ⟨rest, -, hinit⟩ := Option.bind_eq_some_iff.mp hinit
  obtain ⟨-, hinit⟩ := of_guard hinit
  obtain ⟨share, -, hinit⟩ := Option.bind_eq_some_iff.mp hinit
  obtain rfl := eq_of_saveCobuilders hinit
  exact ⟨⟨_, hbooks⟩, lt_of_lt_of_le (by decide) (Int64.le_iff_toInt_le.mp hunit), hshares, nofun⟩

theorem Live.step (hs : Live s) (hcareful : Careful s m) (hrun : step h last s m = some t) : Live t := by
  obtain ⟨balance, -, -, hcall⟩ := step_of_main hrun
  exact hcall.live hcareful (hs.credited balance s.requests)

theorem Live.run {events : List (LedgerEvent Call)} {t : Ledgered Cobuild} (hs : Live s)
    (hcareful : Ledgered.Along back (Cobuild.step h) Careful ⟨s, s⟩ events)
    (hrun : Cobuild.run h ⟨s, s⟩ events = some t) : Live t.now := by
  have hback (last now : Cobuild) (hlast : Live last) (_ : Live now) : Live (back last now) :=
    hlast.credited last.balance now.requests
  have hcall (last now : Cobuild) (m : Call) (u : Cobuild) (_ : .call m ∈ events) (hm : Careful now m) (_ : Live last)
      (hnow : Live now) (hu : Cobuild.step h last now m = some u) : Live u := hnow.step hm hu
  exact (Ledgered.run_along (I := Live) (s := ⟨_, _⟩) (fun _ => hback) hcall hcareful hs hs hrun).2

/-! ### A reward is divided -/

/-- The number is one of 64 bits. -/
def Fits (n : ℤ) : Prop := -2 ^ 63 ≤ n ∧ n < 2 ^ 63

instance (n : ℤ) : Decidable (Fits n) := inferInstanceAs (Decidable (_ ∧ _))

theorem Fits.exists_toInt {n : ℤ} (hn : Fits n) : ∃ x : Int64, x.toInt = n :=
  ⟨Int64.ofInt n, Int64.toInt_ofInt_of_le hn.1 hn.2⟩

/-- What a cobuilder gets of an amount, without what is left over. -/
def portion (amount : Int64) (s : Cobuild) (r : Cobuilder) : ℤ :=
  amount.toInt / s.states.pledgedShares.toInt * if r.pledged then r.share.toInt else 0

/-- The sums that are made when an amount is distributed fit in 64 bits. -/
def SumsFit (amount : Int64) (s : Cobuild) : Prop :=
  Fits (s.balance.toInt + amount.toInt) ∧
    (∀ e ∈ s.cobuilders.entries, Fits (portion amount s e.2) ∧ Fits (e.2.award.toInt + portion amount s e.2)) ∧
    ∀ r ∈ s.cobuilders.lookup s.cfg.initiator,
      Fits (r.award.toInt + portion amount s r + amount.toInt % s.states.pledgedShares.toInt)

instance (amount : Int64) (s : Cobuild) : Decidable (SumsFit amount s) :=
  have : Decidable (∀ r ∈ s.cobuilders.lookup s.cfg.initiator,
      Fits (r.award.toInt + portion amount s r + amount.toInt % s.states.pledgedShares.toInt)) :=
    Option.decidableForallMem ..
  inferInstanceAs (Decidable (_ ∧ _ ∧ _))

/-- The entry with more awarded. -/
def Cobuilder.plus (n : ℤ) (r : Cobuilder) : Cobuilder := { r with award := Int64.ofInt (r.award.toInt + n) }

/-- The cobuilders after a reward. -/
def awarded (amount : Int64) (s : Cobuild) : Records Address Cobuilder :=
  let c := s.cobuilders.map fun _ r => r.plus (portion amount s r)
  match c.lookup s.cfg.initiator with
  | none => c
  | some r => c.insert s.cfg.initiator (r.plus (amount.toInt % s.states.pledgedShares.toInt))

theorem rewarded_eq {unitReward : Int64} {r : Cobuilder}
    (heach : Fits (unitReward.toInt * if r.pledged then r.share.toInt else 0))
    (haward : Fits (r.award.toInt + unitReward.toInt * if r.pledged then r.share.toInt else 0)) :
    rewarded unitReward r = some (r.plus (unitReward.toInt * if r.pledged then r.share.toInt else 0)) := by
  unfold rewarded Cobuilder.plus
  split_ifs at heach haward ⊢ with hpledged
  · obtain ⟨each, hproduct⟩ := heach.exists_toInt
    rw [← hproduct] at haward ⊢
    obtain ⟨award, hsum⟩ := haward.exists_toInt
    have hmul : int64Mul unitReward r.share = some each := SafeInt.safeIntMul_of_toInt hproduct
    have hadd : int64Add r.award each = some award := SafeInt.safeIntAdd_eq_some.mpr hsum
    rw [hmul, Option.bind_eq_bind, Option.bind_some, hadd, ← hsum, Int64.ofInt_toInt]
    rfl
  · rw [mul_zero, add_zero, Int64.ofInt_toInt]
    rfl

theorem distribute_eq {r : Cobuilder} (hm : m.msgSender = dposContract) (hamount : 0 ≤ amount.toInt)
    (balance : Int64) (hpledged : 0 < s.states.pledgedShares.toInt) (hfits : SumsFit amount s)
    (hr : s.cobuilders.lookup s.cfg.initiator = some r) :
    distribute h m amount { s with balance := balance } =
      saveCobuilders h (awarded amount s) { s with balance := balance } := by
  obtain ⟨-, hentries, hleft⟩ := hfits
  have hdefined := division_defined hamount hpledged
  have hdiv : int64Div amount s.states.pledgedShares = some (amount / s.states.pledgedShares) := if_neg hdefined
  have hmod : int64Mod amount s.states.pledgedShares = some (amount % s.states.pledgedShares) := if_neg hdefined
  have hquot := (int64Div_toInt hdiv).2.2
  have hall : s.cobuilders.traverse (fun _ r => rewarded (amount / s.states.pledgedShares) r) =
      some (s.cobuilders.map fun _ r => r.plus (portion amount s r)) := by
    refine Records.traverse_eq_some fun e he => ?_
    obtain ⟨heach, haward⟩ := hentries e he
    rw [portion, ← hquot] at heach haward ⊢
    exact rewarded_eq heach haward
  obtain ⟨-, haward⟩ := hentries ⟨_, r⟩ (AList.mem_lookup_iff.mp hr)
  have hinitiator : (s.cobuilders.map fun _ r => r.plus (portion amount s r)).lookup s.cfg.initiator =
      some (r.plus (portion amount s r)) := by
    rw [Records.lookup_map, hr, Option.map_some]
  obtain ⟨award, hsum⟩ := (hleft r hr).exists_toInt
  have hread : (r.plus (portion amount s r)).award.toInt = r.award.toInt + portion amount s r :=
    Int64.toInt_ofInt_of_le haward.1 haward.2
  have hadd : int64Add (r.plus (portion amount s r)).award (amount % s.states.pledgedShares) = some award := by
    refine SafeInt.safeIntAdd_eq_some.mpr ?_
    rw [hsum, hread, int64Mod_toInt hmod]
  have hplus : (r.plus (portion amount s r)).plus (amount.toInt % s.states.pledgedShares.toInt) =
      { r.plus (portion amount s r) with award := award } := by
    rw [Cobuilder.plus, hread, ← hsum, Int64.ofInt_toInt]
  unfold distribute awarded
  simp only [hm, hdiv, hall, hmod, hinitiator, hadd, hplus, guard, Option.bind_eq_bind, Option.bind_some, if_true, pure]

/-- After any careful calls, while the contract has applied and is not disabled and the initiator is a cobuilder, a
reward of the DPoS contract whose sums fit is taken, and the awards grow by exactly that reward. -/
theorem reward_distributed (h : Host) (initiator : Address) (coinAmount baseReserve : Int64) (params : Params)
    (s : Cobuild) (hinit : init h initiator coinAmount baseReserve params = some s) (events : List (LedgerEvent Call))
    (hcareful : Ledgered.Along back (step h) Careful ⟨s, s⟩ events) (t : Ledgered Cobuild)
    (hrun : run h ⟨s, s⟩ events = some t) (happlied : t.now.states.applied = true)
    (hdisabled : t.now.states.disabled = false)
    (hinitiator : (t.now.cobuilders.lookup t.now.cfg.initiator).isSome = true) (m : Call) (hinput : m.input = .reward)
    (hm : m.msgSender = dposContract) (hamount : 0 ≤ m.coinAmount.toInt) (hfits : SumsFit m.coinAmount t.now)
    (hsize : h.cobuildersSize (awarded m.coinAmount t.now) ≤ General.metadataMaxValueSize) :
    ∃ u, step h t.last t.now m = some u ∧ awards u.cobuilders = awards t.now.cobuilders + m.coinAmount.toInt := by
  have hlive := (live_init hinit).run hcareful hrun
  obtain ⟨r, hr⟩ := Option.isSome_iff_exists.mp hinitiator
  obtain ⟨balance, hbalance⟩ := hfits.1.exists_toInt
  have hreceive : receive t.now.balance m.coinAmount = some balance := by
    rw [receive, if_neg, SafeInt.safeIntAdd_eq_some.mpr hbalance]
    rw [Int64.not_lt, Int64.le_iff_toInt_le, Int64.toInt_zero]
    exact hamount
  have hstep : step h t.last t.now m = distribute h m m.coinAmount { t.now with balance := balance } := by
    simp [step, main, dispatch, hreceive, hdisabled, hinput, Input.takesCoins, guard]
  have hdistribute := distribute_eq (h := h) hm hamount balance (hlive.pledged happlied) hfits hr
  obtain ⟨u, hu⟩ : ∃ u, distribute h m m.coinAmount { t.now with balance := balance } = some u := by
    rw [hdistribute, saveCobuilders, if_neg (Nat.not_lt.mpr hsize)]
    exact ⟨_, rfl⟩
  obtain ⟨reserve, hbooks⟩ := hlive.books
  exact ⟨u, hstep.trans hu, (distribute_spec hu).2.2.2 hbooks.pledged⟩

/-- The initiator transfers all its shares to `b`. -/
def leftShares : List Call :=
  pledgedStart ++ [plainCall "i" 0 (.transfer "b" 10), plainCall "b" 10 (.accept "i")]

def rewardCall : Call := { plainCall "z" 1 .reward with msgSender := dposContract }

/-- With the shares of the initiator its entry is gone, and no reward can be distributed any more. -/
theorem reward_without_initiator : ∃ s t, plainInit = some s ∧ plainRun leftShares s = some t ∧
    t.now.states.applied = true ∧ t.now.states.disabled = false ∧ SumsFit rewardCall.coinAmount t.now ∧
      step plainHost t.last t.now rewardCall = none := by
  have hrun : (plainInit.bind (plainRun leftShares)).any (fun t =>
      t.now.states.applied = true ∧ t.now.states.disabled = false ∧ SumsFit rewardCall.coinAmount t.now ∧
        (step plainHost t.last t.now rewardCall).isNone) = true := by decide +kernel
  obtain ⟨t, ht, hall⟩ := (Option.any_eq_true ..).mp hrun
  obtain ⟨s, hs, ht⟩ := Option.bind_eq_some_iff.mp ht
  obtain ⟨happlied, hdisabled, hfits, hnone⟩ := of_decide_eq_true hall
  exact ⟨s, t, hs, ht, happlied, hdisabled, hfits, Option.isNone_iff_eq_none.mp hnone⟩

theorem reward_distributed_pledgedStart : ∃ s t, plainInit = some s ∧ plainRun pledgedStart s = some t ∧
    SumsFit rewardCall.coinAmount t.now ∧ ∃ u, step plainHost t.last t.now rewardCall = some u ∧
      awards u.cobuilders = awards t.now.cobuilders + rewardCall.coinAmount.toInt := by
  have hrun : plainInit.any (fun s =>
      Ledgered.Along back (step plainHost) Careful ⟨s, s⟩ (pledgedStart.map .call) ∧
      (plainRun pledgedStart s).any fun t => t.now.states.applied = true ∧ t.now.states.disabled = false ∧
        (t.now.cobuilders.lookup t.now.cfg.initiator).isSome = true ∧ SumsFit rewardCall.coinAmount t.now) = true := by
    decide +kernel
  obtain ⟨s, hs, hall⟩ := (Option.any_eq_true ..).mp hrun
  obtain ⟨hcareful, hany⟩ := of_decide_eq_true hall
  obtain ⟨t, ht, hend⟩ := (Option.any_eq_true ..).mp hany
  obtain ⟨happlied, hdisabled, hinitiator, hfits⟩ := of_decide_eq_true hend
  exact ⟨s, t, hs, ht, hfits, reward_distributed plainHost "i" minInitAmount 0 _ s hs _ hcareful t ht happlied hdisabled
    hinitiator rewardCall rfl rfl (by decide) hfits (by decide : 100 ≤ General.metadataMaxValueSize)⟩

end Cobuild
end OpenSesame
