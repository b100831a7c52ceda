import Mathlib.Algebra.BigOperators.Group.Finset.Basic
import OpenSesame.Theorems.Contract.CobuildShares

/-! # The polls of `cobuild.js`

The sum of a proposal is the sum of its ballot, which has for every account the shares it had when
it polled. -/

namespace OpenSesame
open Protocol ScriptUtils Option

namespace Cobuild

/-! ### The sum of the ballot -/

/-- The sum of the proposal is that of its ballot. -/
def Tallied (s : Cobuild) : Prop :=
  ∀ p, s.withdraw = some p → p.sum.toInt = p.ballot.sum fun _ v => v.toInt

variable {p : Proposal}

section Tallied
variable {h : Host} {call : Int64 → Request → Cobuild → Option Cobuild} {m : Call} {last s t : Cobuild}

theorem Tallied.of_withdraw (hs : Tallied s) (hwithdraw : t.withdraw = s.withdraw ∨ t.withdraw = none) :
    Tallied t := by
  rcases hwithdraw with hsame | hnone
  · rwa [Tallied, hsame]
  · intro p hp
    rw [hnone] at hp
    cases hp

theorem withdraw_of_distribute {amount : Int64} (hrun : distribute h m amount s = some t) :
    t.withdraw = s.withdraw := by
  obtain ⟨-, hrun⟩ := of_guard hrun
  obtain ⟨unitReward, -, hrun⟩ := bind_eq_some_iff.mp hrun
  obtain ⟨c, -, hrun⟩ := bind_eq_some_iff.mp hrun
  obtain ⟨left, -, hrun⟩ := bind_eq_some_iff.mp hrun
  obtain ⟨r, -, hrun⟩ := bind_eq_some_iff.mp hrun
  obtain ⟨award, -, hrun⟩ := bind_eq_some_iff.mp hrun
  obtain rfl := eq_of_saveCobuilders hrun
  rfl

theorem withdraw_of_coExtract {list : Option (List Address)}
    (hpay : coExtract h (fun _ _ s => some s) m list s = some t) : t.withdraw = s.withdraw := by
  unfold coExtract at hpay
  rw [bind_eq_bind, bind_some] at hpay
  rcases list with - | list
  · obtain ⟨r, -, hpay⟩ := bind_eq_some_iff.mp hpay
    obtain ⟨s', hsave, hpay⟩ := bind_eq_some_iff.mp hpay
    obtain rfl := eq_of_saveCobuilders hsave
    obtain ⟨balance, -, rfl⟩ := paid_of_transferCoin hpay
    rfl
  · obtain ⟨-, hpay⟩ := of_guard hpay
    obtain ⟨⟨c, s'⟩, hloop, hpay⟩ := bind_eq_some_iff.mp hpay
    obtain rfl := eq_of_saveCobuilders hpay
    obtain ⟨⟨balance, rfl⟩, -, -⟩ : PaidOut (s.cobuilders, s) (c, s') :=
      Script.foldlM_keeps (I := PaidOut) .refl (fun _ _ _ => .trans) (fun _ _ _ _ => paidOut_of_extractOne) hloop
    rfl

theorem Fresh.tally (hp : Fresh p) : p.sum.toInt = p.ballot.sum fun _ v => v.toInt := by
  rw [hp.1, hp.2, Int64.toInt_zero, Records.sum_empty]

theorem Tallied.current (hs : Tallied s) (hp : currentProposal m s = some p) :
    p.sum.toInt = p.ballot.sum fun _ v => v.toInt := by
  rcases currentProposal_cases hp with hstored | ⟨-, hfresh⟩
  · exact hs p hstored
  · exact hfresh.tally

theorem polled_tally {a : Address} {share sum : Int64}
    (hp : p.sum.toInt = p.ballot.sum fun _ v => v.toInt) (hfirst : p.ballot.lookup a = none)
    (hsum : int64Add p.sum share = some sum) :
    (p.polled a share sum).sum.toInt = (p.polled a share sum).ballot.sum fun _ v => v.toInt := by
  change sum.toInt = Records.sum (fun _ v => v.toInt) (p.ballot.insert a share)
  rw [Records.sum_insert, Records.share_none hfirst, int64Add_toInt hsum, hp, sub_zero]

theorem tallied_store (hp : p.sum.toInt = p.ballot.sum fun _ v => v.toInt) : Tallied { s with withdraw := some p } := by
  intro q hq
  cases hq
  exact hp

/-- The calls of the DPoS contract keep the tally. -/
def Tallies (call : Int64 → Request → Cobuild → Option Cobuild) : Prop :=
  ∀ amount input s t, Tallied s → call amount input s = some t → Tallied t

theorem tallied_takeShares {transferor : Address} {r : Cobuilder} {shares gain : Int64} {s₁ : Cobuild}
    {c : Records Address Cobuilder} (hcalls : Tallies call) (hs : Tallied s)
    (htake : takeShares call m transferor r shares s = some (s₁, c, gain)) : Tallied s₁ := by
  obtain ⟨rest, -, htake⟩ := bind_eq_some_iff.mp htake
  split at htake
  · obtain ⟨s', hcall, htake⟩ := bind_eq_some_iff.mp htake
    obtain ⟨r', -, htake⟩ := bind_eq_some_iff.mp htake
    obtain ⟨rfl, -⟩ : s' = s₁ ∧ _ := by simpa using htake
    exact hcalls _ _ s s' hs hcall
  · obtain ⟨-, htake⟩ := of_guard htake
    obtain ⟨rfl, -⟩ : s = s₁ ∧ _ := by simpa using htake
    exact hs

theorem Step.tallied (hstep : Step h call m s t) (hcalls : Tallies call) (hs : Tallied s) : Tallied t := by
  cases hstep with
  | idle => exact hs
  | subscribe hprice hentry hall => exact hs
  | revoke hstake hpledged hall hprice hamount hpaid =>
    obtain ⟨balance, -, rfl⟩ := hpaid
    exact hs
  | coApply happlied hraise hamount hcall hinput =>
    refine hcalls _ _ _ t ?_ hcall
    exact hs
  | coAppend happlied hshares hamount hcall =>
    refine hcalls _ _ _ t ?_ hcall
    exact hs
  | ask hcall => exact hcalls _ _ s t hs hcall
  | transfer transfers => exact hs
  | accept hinput hr hpledged hprice htake hentry hamount hpaid =>
    have htaken := tallied_takeShares hcalls hs htake
    obtain ⟨balance, -, rfl⟩ := hpaid
    exact htaken
  | coExtract hcall hpay => exact (hcalls _ _ s _ hs hcall).of_withdraw (.inl (withdraw_of_coExtract hpay))
  | disband happlied => exact hs
  | @withdraw p t happlied hp hcall =>
    have hstored : Tallied { s with withdraw := some { p with withdrawed := true } } := tallied_store hp.tally
    exact hcalls _ _ _ t hstored hcall
  | poll hr hp hfirst hsum => exact tallied_store (polled_tally (hs.current hp) hfirst hsum)
  | @pollWithdraw p r sum t hr hp hfirst hsum hcall =>
    have hstored : Tallied { s with withdraw := some { p.polled m.txSender r.share sum with withdrawed := true } } :=
      tallied_store (polled_tally (hs.current hp) hfirst hsum)
    exact hcalls _ _ _ t hstored hcall
  | reward hrun => exact hs.of_withdraw (.inl (withdraw_of_distribute hrun))
  | refund hinput => exact hs.of_withdraw (.inr rfl)

theorem Tallied.main (hs : Tallied s) (hcalls : Tallies call) (hrun : main h call m s = some t) : Tallied t := by
  obtain ⟨balance, -, -, hstep⟩ := step_of_main hrun
  exact hstep.tallied hcalls hs

theorem tallies_none : Tallies fun _ _ _ => none := by
  intro amount input s t hs hcall
  cases hcall

theorem Tallied.replied {r : Reply} (hs : Tallied s) (hlast : Tallied last) (hrun : replied h m last s r = some t) :
    Tallied t := by
  cases r with
  | reward amount => exact hs.main tallies_none hrun
  | fallBack => exact some.inj hrun ▸ hlast
  | callBack sender amount input => exact hs.main tallies_none hrun

theorem tallies_callDPOS (hlast : Tallied last) : Tallies (callDPOS h m last) := by
  intro amount input s t hs hcall
  obtain ⟨answer, s₁, -, ⟨balance, -, rfl⟩, hcall⟩ := callDPOS_cases hcall
  cases input with
  | extract =>
    exact Script.foldlM_keeps (I := fun s t => Tallied s → Tallied t) (fun _ => id) (fun _ _ _ hst htu => htu ∘ hst)
      (fun _ _ _ _ hreply hs => hs.replied hlast hreply) hcall hs
  | withdraw role =>
    rcases answered_withdraw hcall with rfl | ⟨refund, -, hreply⟩
    · exact hs
    · exact Tallied.main (s := { s with balance := balance, requests := s.requests ++ [(amount, .withdraw role)] }) hs
        tallies_none hreply
  | _ =>
    cases hcall
    exact hs

theorem Tallied.run {events : List (LedgerEvent Call)} {t : Ledgered Cobuild} (hs : Tallied s)
    (hrun : run h ⟨s, s⟩ events = some t) : Tallied t.now := by
  have hback (last now : Cobuild) (hlast : Tallied last) (_ : Tallied now) : Tallied (back last now) := hlast
  have hcall (last now : Cobuild) (m : Call) (u : Cobuild) (_ : .call m ∈ events) (hlast : Tallied last)
      (hnow : Tallied now) (hu : step h last now m = some u) : Tallied u := hnow.main (tallies_callDPOS hlast) hu
  exact (Ledgered.run_keeps (I := Tallied) (s := ⟨_, _⟩) (fun _ => hback) hcall hs hs hrun).2

theorem tallied_init {a : Address} {coinAmount baseReserve : Int64} {params : Params}
    (hinit : init h a coinAmount baseReserve params = some s) : Tallied s := by
  obtain ⟨odd, -, hinit⟩ := bind_eq_some_iff.mp hinit
  obtain ⟨-, hinit⟩ := of_guard hinit
  obtain ⟨-, hinit⟩ := of_guard hinit
  obtain ⟨fund, -, hinit⟩ := bind_eq_some_iff.mp hinit
  obtain ⟨-, hinit⟩ := of_guard hinit
  obtain ⟨rest, -, hinit⟩ := bind_eq_some_iff.mp hinit
  obtain ⟨-, hinit⟩ := of_guard hinit
  obtain ⟨share, -, hinit⟩ := bind_eq_some_iff.mp hinit
  obtain rfl := eq_of_saveCobuilders hinit
  intro p hp
  cases hp

end Tallied

/-! ### A majority -/

/-- The ballot of the proposal that is stored. -/
def ballot (s : Cobuild) : Records Address Int64 := s.withdraw.elim ∅ Proposal.ballot

/-- The pledged shares of an account. -/
def pledgedShareOf (s : Cobuild) (a : Address) : ℤ :=
  s.cobuilders.share (fun _ r => if r.pledged then r.share.toInt else 0) a

/-- Those who have polled, with the sender of a poll. -/
def pollers (s : Cobuild) (m : Call) : Finset Address := insert m.txSender (ballot s).keys.toFinset

/-- Everybody in the ballot still has the shares that were counted. -/
def Held (s : Cobuild) : Prop := ∀ e ∈ (ballot s).entries, e.2.toInt ≤ pledgedShareOf s e.1

instance (s : Cobuild) : Decidable (Held s) := inferInstanceAs (Decidable (∀ e ∈ _, _))

/-- The call asks the DPoS contract to withdraw. -/
def Withdraws (s t : Cobuild) : Prop := ∃ role, t.requests = s.requests ++ [(0, .withdraw role)]

section Majority
variable {h : Host} {m : Call} {last s t : Cobuild}

theorem ballot_of_currentProposal (hp : currentProposal m s = some p) : p.ballot = ballot s := by
  rcases currentProposal_cases hp with hstored | ⟨hnone, hfresh⟩
  · rw [ballot, hstored, elim_some]
  · rw [ballot, hnone, elim_none, hfresh.2]

theorem not_withdraws (hrequests : t.requests = s.requests) : ¬ Withdraws s t := by
  rintro ⟨role, hrole⟩
  rw [hrequests] at hrole
  simpa using congrArg List.length hrole

theorem poll_withdraws (hrun : poll h (callDPOS h m last) m s = some t) (hwithdraws : Withdraws s t) :
    ∃ p r sum, currentProposal m s = some p ∧ p.ballot.lookup m.txSender = none ∧
      s.cobuilders.lookup m.txSender = some r ∧ r.pledged = true ∧ int64Add p.sum r.share = some sum ∧
      s.states.pledgedShares.toInt < 2 * sum.toInt := by
  obtain ⟨-, hrun⟩ := of_guard hrun
  obtain ⟨r, hr, hrun⟩ := bind_eq_some_iff.mp hrun
  obtain ⟨hpledged, hrun⟩ := of_guard hrun
  obtain ⟨p, hp, hrun⟩ := bind_eq_some_iff.mp hrun
  split at hrun
  · cases hrun
    exact absurd hwithdraws (not_withdraws rfl)
  · rename_i hfirst
    obtain ⟨sum, hsum, hrun⟩ := bind_eq_some_iff.mp hrun
    obtain ⟨parts, hparts, hrun⟩ := bind_eq_some_iff.mp hrun
    split at hrun
    · obtain rfl := eq_of_saveProposal hrun
      exact absurd hwithdraws (not_withdraws rfl)
    · rename_i hless
      refine ⟨p, r, sum, hp, by simpa using hfirst, hr, hpledged, hsum, ?_⟩
      obtain ⟨-, hpos, hquot⟩ := int64Div_toInt hparts
      have htwo : parts.toInt < 2 := not_le.mp fun hle => hless (Int64.le_iff_toInt_le.mpr hle)
      rw [hquot] at htwo
      exact (Int.ediv_lt_iff_lt_mul hpos).mp htwo

theorem ballot_sum_le (hheld : Held s) :
    (ballot s).sum (fun _ v => v.toInt) ≤ ∑ a ∈ (ballot s).keys.toFinset, pledgedShareOf s a := by
  have hkeys : ∑ a ∈ (ballot s).keys.toFinset, pledgedShareOf s a = (ballot s).sum fun a _ => pledgedShareOf s a := by
    rw [List.sum_toFinset _ (ballot s).keys_nodup]
    simp only [AList.keys, List.keys, List.map_map, Records.sum]
    rfl
  rw [hkeys]
  exact List.sum_le_sum hheld

/-- From any state that calls reach, a poll withdraws the deposit only with more than half of the pledged shares, if
those who have polled still have the shares they polled with. -/
theorem withdrawn_by_majority (h : Host) (initiator : Address) (coinAmount baseReserve : Int64) (params : Params)
    (s₀ t : Cobuild) (hinit : init h initiator coinAmount baseReserve params = some s₀)
    (events : List (LedgerEvent Call)) (s : Ledgered Cobuild) (hrun : run h ⟨s₀, s₀⟩ events = some s) (m : Call)
    (hpoll : m.input = .poll) (hstep : step h s.last s.now m = some t) (hwithdraws : Withdraws s.now t)
    (hheld : Held s.now) :
    s.now.states.pledgedShares.toInt < 2 * ∑ a ∈ pollers s.now m, pledgedShareOf s.now a := by
  obtain ⟨balance, -, -, rfl | hdispatch⟩ := main_cases hstep
  · exact absurd hwithdraws (not_withdraws rfl)
  rw [dispatch, hpoll] at hdispatch
  obtain ⟨p, r, sum, hp, hfirst, hr, hpledged, hsum, hmajority⟩ := poll_withdraws hdispatch hwithdraws
  have htally : p.sum.toInt = p.ballot.sum fun _ v => v.toInt := ((tallied_init hinit).run hrun).current hp
  have hballot : p.ballot = ballot s.now := ballot_of_currentProposal hp
  have hown : pledgedShareOf s.now m.txSender = r.share.toInt := by
    rw [pledgedShareOf, Records.share_some hr, if_pos hpledged]
  have hnew : m.txSender ∉ (ballot s.now).keys.toFinset := by
    rw [List.mem_toFinset, ← hballot]
    exact AList.lookup_eq_none.mp hfirst
  have hle := ballot_sum_le hheld
  rw [int64Add_toInt hsum, htally, hballot] at hmajority
  rw [pollers, Finset.sum_insert hnew, hown]
  change s.now.states.pledgedShares.toInt < _ at hmajority
  omega

theorem withdrawn_by_majority_pledgedStart :
    ∃ s₀ s t, plainInit = some s₀ ∧ plainRun (pledgedStart ++ [plainCall "a" 0 .poll]) s₀ = some s ∧
      step plainHost s.last s.now (plainCall "i" 0 .poll) = some t ∧ Withdraws s.now t ∧ Held s.now ∧
        s.now.states.pledgedShares.toInt <
          2 * ∑ a ∈ pollers s.now (plainCall "i" 0 .poll), pledgedShareOf s.now a := by
  have hrun : (plainInit.bind (plainRun (pledgedStart ++ [plainCall "a" 0 .poll]))).any (fun s =>
      (step plainHost s.last s.now (plainCall "i" 0 .poll)).any (fun t =>
        t.requests = s.now.requests ++ [(0, .withdraw .kol)]) ∧ Held s.now) = true := by decide +kernel
  obtain ⟨s, hs, hall⟩ := (any_eq_true ..).mp hrun
  obtain ⟨s₀, hs₀, hs⟩ := bind_eq_some_iff.mp hs
  obtain ⟨hpoll, hheld⟩ := of_decide_eq_true hall
  obtain ⟨t, ht, hrequests⟩ := (any_eq_true ..).mp hpoll
  have hwithdraws : Withdraws s.now t := ⟨_, of_decide_eq_true hrequests⟩
  exact ⟨s₀, s, t, hs₀, hs, ht, hwithdraws, hheld,
    withdrawn_by_majority plainHost "i" minInitAmount 0 _ s₀ t hs₀ _ s hs _ rfl ht hwithdraws hheld⟩

/-- The account `c` has ten of thirty shares as well. The account `a` polls, gives its shares to `b`, and `b`
polls. -/
def pollTwice : List Call :=
  [plainCall "c" 10 (.subscribe 10)] ++ pledgedStart ++
    [plainCall "a" 0 .poll, plainCall "a" 0 (.transfer "b" 10), plainCall "b" 10 (.accept "a")]

/-- The ten shares count twice: ten of thirty shares withdraw the deposit. -/
theorem withdrawn_by_minority : ∃ s₀ s t, plainInit = some s₀ ∧ plainRun pollTwice s₀ = some s ∧
    step plainHost s.last s.now (plainCall "b" 0 .poll) = some t ∧ Withdraws s.now t ∧
      s.now.states.pledgedShares.toInt = 30 ∧
      ∑ a ∈ pollers s.now (plainCall "b" 0 .poll), pledgedShareOf s.now a = 10 := by
  have hrun : (plainInit.bind (plainRun pollTwice)).any (fun s =>
      (step plainHost s.last s.now (plainCall "b" 0 .poll)).any (fun t =>
        t.requests = s.now.requests ++ [(0, .withdraw .kol)]) ∧
        s.now.states.pledgedShares.toInt = 30 ∧
        ∑ a ∈ pollers s.now (plainCall "b" 0 .poll), pledgedShareOf s.now a = 10) = true := by decide +kernel
  obtain ⟨s, hs, hall⟩ := (any_eq_true ..).mp hrun
  obtain ⟨s₀, hs₀, hs⟩ := bind_eq_some_iff.mp hs
  obtain ⟨hpoll, hsums⟩ := of_decide_eq_true hall
  obtain ⟨t, ht, hrequests⟩ := (any_eq_true ..).mp hpoll
  exact ⟨s₀, s, t, hs₀, hs, ht, ⟨_, of_decide_eq_true hrequests⟩, hsums⟩

end Majority

end Cobuild
end OpenSesame
