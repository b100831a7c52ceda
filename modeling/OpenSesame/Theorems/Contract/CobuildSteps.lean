import OpenSesame.Contract.Cobuild

/-! # What the calls of `cobuild.js` do

The effect of every method on the records, once its checks have passed. -/

namespace OpenSesame
open Protocol ScriptUtils Option

namespace Cobuild

variable {amount : Int64} {dest : Address}

section Parts
variable {h : Host} {m : Call} {s t : Cobuild}

theorem eq_of_saveCobuilders {c : Records Address Cobuilder} (hsave : saveCobuilders h c s = some t) :
    { s with cobuilders := c } = t := by
  unfold saveCobuilders at hsave
  split at hsave
  · cases hsave
  · exact some.inj hsave

variable {p : Proposal}

theorem eq_of_saveProposal (hsave : saveProposal h p s = some t) : { s with withdraw := some p } = t := by
  unfold saveProposal at hsave
  split at hsave
  · cases hsave
  · exact some.inj hsave

/-- An amount is paid, and nothing else happens. -/
def Paid (amount : Int64) (s t : Cobuild) : Prop :=
  ∃ balance : Int64, balance.toInt = s.balance.toInt - amount.toInt ∧ { s with balance := balance } = t

theorem paid_of_payCoin (hpay : payCoin h m dest amount s = some t) :
    Paid amount s t := by
  obtain ⟨-, hpay⟩ := of_guard hpay
  obtain ⟨balance, hbalance, hpay⟩ := bind_eq_some_iff.mp hpay
  exact ⟨balance, (spend_toInt hbalance).2, some.inj hpay⟩

theorem paid_of_transferCoin (hpay : transferCoin h m dest amount s = some t) :
    Paid amount s t := by
  unfold transferCoin at hpay
  split at hpay
  · rename_i hzero
    exact ⟨s.balance, by rw [hzero, Int64.toInt_zero, sub_zero], some.inj hpay⟩
  · exact paid_of_payCoin hpay

/-- A proposal nobody has polled for. -/
def Fresh (p : Proposal) : Prop := p.sum = 0 ∧ p.ballot = ∅

theorem fresh_of_withdrawProposal (hp : withdrawProposal m = some p) : Fresh p := by
  obtain ⟨validPeriod, -, hp⟩ := bind_eq_some_iff.mp hp
  cases hp
  exact ⟨rfl, rfl⟩

theorem currentProposal_cases (hp : currentProposal m s = some p) :
    s.withdraw = some p ∨ s.withdraw = none ∧ Fresh p := by
  unfold currentProposal at hp
  split at hp
  · rename_i hnone
    exact .inr ⟨hnone, fresh_of_withdrawProposal hp⟩
  · rename_i stored hstored
    exact .inl (hstored.trans hp)

end Parts

/-- All shares are pledged. -/
def pledgeAll (s : Cobuild) : Cobuild :=
  { s with
    states := { s.states with applied := true, pledgedShares := s.states.allShares }
    cobuilders := s.cobuilders.map fun _ r => { r with pledged := true } }

/-- The deposit is back, and no share is pledged. -/
def releaseAll (s : Cobuild) : Cobuild :=
  { s with
    states := { s.states with role := none, disabled := true, applied := false, pledgedShares := 0 }
    cobuilders := s.cobuilders.map fun _ r => { r with pledged := false }
    withdraw := none }

/-- The proposal with one more poll. -/
def Proposal.polled (p : Proposal) (a : Address) (share sum : Int64) : Proposal :=
  { p with ballot := p.ballot.insert a share, sum := sum }

/-- The effect of a method, from the state in which the coins of the call have come in, where `call` is what a call of
the DPoS contract does. -/
inductive Step (h : Host) (call : Int64 → Request → Cobuild → Option Cobuild) (m : Call) (s : Cobuild) :
    Cobuild → Prop where
  | idle : Step h call m s s
  | subscribe {shares all : Int64} {entry : Cobuilder} (hprice : int64Mul s.cfg.unit shares = some m.coinAmount)
      (hentry : subscribed shares (s.cobuilders.lookup m.txSender) = some entry)
      (hall : int64Add s.states.allShares shares = some all) :
      Step h call m s { s with
          states := { s.states with allShares := all }
          cobuilders := s.cobuilders.insert m.txSender entry }
  | revoke {stake : Cobuilder} {all price amount : Int64} {t : Cobuild}
      (hstake : s.cobuilders.lookup m.txSender = some stake) (hpledged : stake.pledged = false)
      (hall : int64Sub s.states.allShares stake.share = some all)
      (hprice : int64Mul s.cfg.unit stake.share = some price) (hamount : int64Add price stake.award = some amount)
      (hpaid : Paid amount { s with
          states := { s.states with allShares := all }
          cobuilders := s.cobuilders.erase m.txSender } t) : Step h call m s t
  | coApply {role : Role} {input : Request} {amount : Int64} {t : Cobuild} (happlied : s.states.applied = false)
      (hraise : s.cfg.raiseShares ≤ s.states.allShares.toInt)
      (hamount : int64Mul s.cfg.unit s.states.allShares = some amount)
      (hcall : call amount input (pledgeAll { s with states := { s.states with role := some role } }) = some t)
      (hinput : ∀ role, input ≠ .withdraw role) : Step h call m s t
  | coAppend {shares amount : Int64} {t : Cobuild} (happlied : s.states.applied = true)
      (hshares : int64Sub s.states.allShares s.states.pledgedShares = some shares)
      (hamount : int64Mul s.cfg.unit shares = some amount)
      (hcall : call amount (.append s.states.role) (pledgeAll s) = some t) : Step h call m s t
  | ask {input : Request} {t : Cobuild} (hcall : call 0 input s = some t) : Step h call m s t
  | transfer (transfers : Records (Address × Address) Int64) : Step h call m s { s with transfers := transfers }
  | accept {transferor : Address} {r entry : Cobuilder} {shares amount gain : Int64} {s₁ t : Cobuild}
      {cobuilders : Records Address Cobuilder} (hinput : m.input = .accept transferor)
      (hr : s.cobuilders.lookup transferor = some r) (hpledged : r.pledged = true)
      (hprice : int64Mul s.cfg.unit shares = some m.coinAmount)
      (htake : takeShares call m transferor r shares s = some (s₁, cobuilders, gain))
      (hentry : accepted shares (cobuilders.lookup m.txSender) = some entry)
      (hamount : int64Add m.coinAmount gain = some amount)
      (hpaid : Paid amount { s₁ with
          transfers := s₁.transfers.erase (transferor, m.txSender)
          cobuilders := cobuilders.insert m.txSender entry } t) : Step h call m s t
  | coExtract {s₁ t : Cobuild} {list : Option (List Address)} (hcall : call 0 .extract s = some s₁)
      (hpay : coExtract h (fun _ _ s => some s) m list s₁ = some t) : Step h call m s t
  | disband (happlied : s.states.applied = false) : Step h call m s { s with states := { s.states with disabled := true } }
  | withdraw {p : Proposal} {t : Cobuild} (happlied : s.states.applied = true) (hp : Fresh p)
      (hcall : call 0 (withdrawInput s) { s with withdraw := some { p with withdrawed := true } } = some t) :
      Step h call m s t
  | poll {p : Proposal} {r : Cobuilder} {sum : Int64} (hr : s.cobuilders.lookup m.txSender = some r)
      (hp : currentProposal m s = some p) (hfirst : p.ballot.lookup m.txSender = none)
      (hsum : int64Add p.sum r.share = some sum) :
      Step h call m s { s with withdraw := some (p.polled m.txSender r.share sum) }
  | pollWithdraw {p : Proposal} {r : Cobuilder} {sum : Int64} {t : Cobuild}
      (hr : s.cobuilders.lookup m.txSender = some r) (hp : currentProposal m s = some p)
      (hfirst : p.ballot.lookup m.txSender = none) (hsum : int64Add p.sum r.share = some sum)
      (hcall : call 0 (withdrawInput s)
        { s with withdraw := some { p.polled m.txSender r.share sum with withdrawed := true } } = some t) :
      Step h call m s t
  | reward {t : Cobuild} (hrun : distribute h m m.coinAmount s = some t) : Step h call m s t
  | refund (hinput : m.input = .refund) : Step h call m s (releaseAll s)

section Methods
variable {h : Host} {call : Int64 → Request → Cobuild → Option Cobuild} {m : Call} {s t : Cobuild}

theorem step_of_subscribe {n : ℤ} (hrun : subscribe h m n s = some t) : Step h call m s t := by
  obtain ⟨-, hrun⟩ := of_guard hrun
  obtain ⟨shares, -, hrun⟩ := bind_eq_some_iff.mp hrun
  obtain ⟨price, hprice, hrun⟩ := bind_eq_some_iff.mp hrun
  obtain ⟨hcoins, hrun⟩ := of_guard hrun
  rw [hcoins] at hprice
  obtain ⟨entry, hentry, hrun⟩ := bind_eq_some_iff.mp hrun
  obtain ⟨all, hall, hrun⟩ := bind_eq_some_iff.mp hrun
  obtain rfl := eq_of_saveCobuilders hrun
  exact .subscribe hprice hentry hall

theorem step_of_revoke (hrun : revoke h m s = some t) : Step h call m s t := by
  obtain ⟨-, hrun⟩ := of_guard hrun
  obtain ⟨stake, hstake, hrun⟩ := bind_eq_some_iff.mp hrun
  obtain ⟨hpledged, hrun⟩ := of_guard hrun
  obtain ⟨s₁, hsave, hrun⟩ := bind_eq_some_iff.mp hrun
  obtain rfl := eq_of_saveCobuilders hsave
  obtain ⟨all, hall, hrun⟩ := bind_eq_some_iff.mp hrun
  obtain ⟨price, hprice, hrun⟩ := bind_eq_some_iff.mp hrun
  obtain ⟨amount, hamount, hrun⟩ := bind_eq_some_iff.mp hrun
  exact .revoke hstake hpledged hall hprice hamount (paid_of_transferCoin hrun)

theorem applyInput_ne {role role' : Role} {pool : Address} {ratio : ℤ} {node : Option Address} {input : Request}
    (hinput : applyInput h role pool ratio node = some input) : input ≠ .withdraw role' := by
  unfold applyInput at hinput
  split at hinput
  · cases hinput
    nofun
  · obtain ⟨a, -, hinput⟩ := bind_eq_some_iff.mp hinput
    obtain ⟨-, hinput⟩ := of_guard hinput
    cases hinput
    nofun

theorem step_of_coApply {role : Option Role} {pool : Address} {ratio : ℤ} {node : Option Address}
    (hrun : coApply h call m role pool ratio node s = some t) : Step h call m s t := by
  obtain ⟨role, rfl, hrun⟩ := bind_eq_some_iff.mp hrun
  obtain ⟨-, hrun⟩ := of_guard hrun
  obtain ⟨-, hrun⟩ := of_guard hrun
  obtain ⟨happlied, hrun⟩ := of_guard hrun
  obtain ⟨-, hrun⟩ := of_guard hrun
  obtain ⟨raise, hraise, hrun⟩ := bind_eq_some_iff.mp hrun
  obtain ⟨hle, hrun⟩ := of_guard hrun
  rw [Int64.le_iff_toInt_le, ofNumber_toInt hraise] at hle
  obtain ⟨s₁, hset, hrun⟩ := bind_eq_some_iff.mp hrun
  obtain rfl := eq_of_saveCobuilders hset
  obtain ⟨amount, hamount, hrun⟩ := bind_eq_some_iff.mp hrun
  obtain ⟨input, hinput, hrun⟩ := bind_eq_some_iff.mp hrun
  exact .coApply happlied hle hamount hrun fun _ => applyInput_ne hinput

theorem step_of_coAppend (hrun : coAppend h call m s = some t) : Step h call m s t := by
  obtain ⟨happlied, hrun⟩ := of_guard hrun
  obtain ⟨-, hrun⟩ := of_guard hrun
  obtain ⟨shares, hshares, hrun⟩ := bind_eq_some_iff.mp hrun
  obtain ⟨amount, hamount, hrun⟩ := bind_eq_some_iff.mp hrun
  obtain ⟨s₁, hset, hrun⟩ := bind_eq_some_iff.mp hrun
  obtain rfl := eq_of_saveCobuilders hset
  exact .coAppend happlied hshares hamount hrun

theorem step_of_transfer {n : ℤ} (hrun : transfer h m dest n s = some t) : Step h call m s t := by
  obtain ⟨-, hrun⟩ := of_guard hrun
  obtain ⟨-, hrun⟩ := of_guard hrun
  obtain ⟨r, -, hrun⟩ := bind_eq_some_iff.mp hrun
  obtain ⟨-, hrun⟩ := of_guard hrun
  obtain ⟨shares, -, hrun⟩ := bind_eq_some_iff.mp hrun
  obtain ⟨-, hrun⟩ := of_guard hrun
  unfold storeTransfer at hrun
  split at hrun
  · split at hrun
    · cases hrun
    · cases hrun
      exact .transfer _
  · cases hrun
    exact .transfer _

theorem step_of_accept {transferor : Address} (hinput : m.input = .accept transferor)
    (hrun : accept h call m transferor s = some t) : Step h call m s t := by
  obtain ⟨-, hrun⟩ := of_guard hrun
  obtain ⟨r, hr, hrun⟩ := bind_eq_some_iff.mp hrun
  obtain ⟨hpledged, hrun⟩ := of_guard hrun
  obtain ⟨shares, -, hrun⟩ := bind_eq_some_iff.mp hrun
  obtain ⟨-, hrun⟩ := of_guard hrun
  obtain ⟨price, hprice, hrun⟩ := bind_eq_some_iff.mp hrun
  obtain ⟨hcoins, hrun⟩ := of_guard hrun
  rw [hcoins] at hprice
  obtain ⟨⟨s₁, cobuilders, gain⟩, htake, hrun⟩ := bind_eq_some_iff.mp hrun
  obtain ⟨entry, hentry, hrun⟩ := bind_eq_some_iff.mp hrun
  obtain ⟨s₂, hsave, hrun⟩ := bind_eq_some_iff.mp hrun
  obtain rfl := eq_of_saveCobuilders hsave
  obtain ⟨amount, hamount, hrun⟩ := bind_eq_some_iff.mp hrun
  exact .accept hinput hr hpledged hprice htake hentry hamount (paid_of_transferCoin hrun)

theorem step_of_coExtract {list : Option (List Address)} (hrun : coExtract h call m list s = some t) :
    Step h call m s t := by
  obtain ⟨s₁, hcall, hrun⟩ := bind_eq_some_iff.mp hrun
  have hpay : coExtract h (fun _ _ s => some s) m list s₁ = some t := hrun
  exact .coExtract hcall hpay

theorem step_of_coWithdraw (hrun : coWithdraw h call m s = some t) : Step h call m s t := by
  obtain ⟨-, hrun⟩ := of_guard hrun
  split at hrun
  · rename_i happlied
    obtain ⟨p, hp, hrun⟩ := bind_eq_some_iff.mp hrun
    obtain ⟨s₁, hsave, hrun⟩ := bind_eq_some_iff.mp hrun
    obtain rfl := eq_of_saveProposal hsave
    exact .withdraw happlied (fresh_of_withdrawProposal hp) hrun
  · rename_i happlied
    cases hrun
    exact .disband (Bool.not_eq_true _ ▸ happlied)

theorem step_of_poll (hrun : poll h call m s = some t) : Step h call m s t := by
  obtain ⟨-, hrun⟩ := of_guard hrun
  obtain ⟨r, hr, hrun⟩ := bind_eq_some_iff.mp hrun
  obtain ⟨-, hrun⟩ := of_guard hrun
  obtain ⟨p, hp, hrun⟩ := bind_eq_some_iff.mp hrun
  split at hrun
  · cases hrun
    exact .idle
  · rename_i hfirst
    obtain ⟨sum, hsum, hrun⟩ := bind_eq_some_iff.mp hrun
    obtain ⟨parts, -, hrun⟩ := bind_eq_some_iff.mp hrun
    have hnone : p.ballot.lookup m.txSender = none := by simpa using hfirst
    split at hrun
    · obtain rfl := eq_of_saveProposal hrun
      exact .poll hr hp hnone hsum
    · obtain ⟨s₁, hsave, hrun⟩ := bind_eq_some_iff.mp hrun
      obtain rfl := eq_of_saveProposal hsave
      exact .pollWithdraw hr hp hnone hsum hrun

theorem releaseAll_of_received (hrun : received h m s = some t) : releaseAll s = t := by
  obtain ⟨-, hrun⟩ := of_guard hrun
  obtain ⟨s₁, hreset, hrun⟩ := bind_eq_some_iff.mp hrun
  obtain rfl := eq_of_saveCobuilders hreset
  exact some.inj hrun

theorem step_of_dispatch (hrun : dispatch h call m s = some t) : Step h call m s t := by
  unfold dispatch at hrun
  split at hrun
  · exact step_of_subscribe hrun
  · exact step_of_revoke hrun
  · exact step_of_coApply hrun
  · exact step_of_coAppend hrun
  · obtain ⟨-, hrun⟩ := of_guard hrun
    obtain ⟨-, hrun⟩ := of_guard hrun
    exact .ask hrun
  · obtain ⟨-, hrun⟩ := of_guard hrun
    obtain ⟨-, hrun⟩ := of_guard hrun
    obtain ⟨-, hrun⟩ := of_guard hrun
    exact .ask hrun
  · exact step_of_transfer hrun
  · rename_i hinput
    exact step_of_accept hinput hrun
  · exact step_of_coExtract hrun
  · exact step_of_coWithdraw hrun
  · exact step_of_poll hrun
  · obtain ⟨p, -, hrun⟩ := bind_eq_some_iff.mp hrun
    obtain ⟨-, hrun⟩ := of_guard hrun
    exact .ask hrun
  · exact .reward hrun
  · rename_i hinput
    obtain rfl := releaseAll_of_received hrun
    exact .refund hinput
  · cases hrun
    exact .idle

theorem main_cases (hrun : main h call m s = some t) :
    ∃ balance : Int64, 0 ≤ m.coinAmount.toInt ∧ balance.toInt = s.balance.toInt + m.coinAmount.toInt ∧
      ({ s with balance := balance } = t ∨ dispatch h call m { s with balance := balance } = some t) := by
  obtain ⟨balance, hbalance, hrun⟩ := bind_eq_some_iff.mp hrun
  obtain ⟨hcoins, hbalance⟩ := receive_toInt hbalance
  refine ⟨balance, hcoins, hbalance, ?_⟩
  split at hrun
  · exact .inl (some.inj hrun)
  · exact .inr (of_guard hrun).2

theorem step_of_main (hrun : main h call m s = some t) :
    ∃ balance : Int64, 0 ≤ m.coinAmount.toInt ∧ balance.toInt = s.balance.toInt + m.coinAmount.toInt ∧
      Step h call m { s with balance := balance } t := by
  obtain ⟨balance, hcoins, hbalance, rfl | hrun⟩ := main_cases hrun
  · exact ⟨balance, hcoins, hbalance, .idle⟩
  · exact ⟨balance, hcoins, hbalance, step_of_dispatch hrun⟩

end Methods

section Answers
variable {h : Host} {m : Call} {last s t : Cobuild}

theorem callDPOS_cases {input : Request} (hcall : callDPOS h m last amount input s = some t) :
    ∃ (answer : Answer) (s₁ : Cobuild), m.answer = some answer ∧ Paid amount s s₁ ∧
      answered h m last answer { s₁ with requests := s₁.requests ++ [(amount, input)] } input = some t := by
  obtain ⟨s₁, hpay, hcall⟩ := bind_eq_some_iff.mp hcall
  obtain ⟨answer, hanswer, hcall⟩ := bind_eq_some_iff.mp hcall
  exact ⟨answer, s₁, hanswer, paid_of_payCoin hpay, hcall⟩

theorem answered_withdraw {answer : Answer} {role : Role}
    (hanswer : answered h m last answer s (.withdraw role) = some t) :
    s = t ∨ ∃ amount, answer.refund = some amount ∧ reply h m dposContract amount .refund s = some t := by
  rcases hrefund : answer.refund with - | amount
  · simp only [answered, hrefund] at hanswer
    exact .inl (some.inj hanswer)
  · simp only [answered, hrefund] at hanswer
    exact .inr ⟨amount, rfl, hanswer⟩

theorem reply_reward (hreply : reply h m dposContract amount .reward s = some t) :
    ∃ balance : Int64, 0 ≤ amount.toInt ∧ balance.toInt = s.balance.toInt + amount.toInt ∧
      ({ s with balance := balance } = t ∨
        distribute h { m with msgSender := dposContract, coinAmount := amount, input := .reward } amount
          { s with balance := balance } = some t) :=
  main_cases hreply

theorem reply_refund (hreply : reply h m dposContract amount .refund s = some t) :
    ∃ balance : Int64, 0 ≤ amount.toInt ∧ balance.toInt = s.balance.toInt + amount.toInt ∧
      ({ s with balance := balance } = t ∨ releaseAll { s with balance := balance } = t) := by
  obtain ⟨balance, hamount, hbalance, hkept | hrun⟩ := main_cases hreply
  · exact ⟨balance, hamount, hbalance, .inl hkept⟩
  · exact ⟨balance, hamount, hbalance, .inr (releaseAll_of_received hrun)⟩

end Answers

end Cobuild
end OpenSesame
