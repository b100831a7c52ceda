
import OpenSesame.Lib.Reentry
import OpenSesame.Theorems.Contract.CobuildSteps

/-! # The shares and the coins of `cobuild.js`

The recorded numbers of shares are the sums over the cobuilders, and the balance covers the shares that are not pledged
and the awards, as long as nobody who has unpledged shares accepts all shares of another, the DPoS contract gives back
what was pledged, and the pool that it pays leaves the contract alone meanwhile. -/

namespace OpenSesame
open Protocol ScriptUtils Records
open Option (bind_eq_some_iff)

namespace Cobuild

/-! ### Sums over the cobuilders -/

def shares (c : Records Address Cobuilder) : ℤ := c.sum fun _ r => r.share.toInt

def pledgedShares (c : Records Address Cobuilder) : ℤ := c.sum fun _ r => if r.pledged then r.share.toInt else 0

def unpledgedShares (c : Records Address Cobuilder) : ℤ := c.sum fun _ r => if r.pledged then 0 else r.share.toInt

def awards (c : Records Address Cobuilder) : ℤ := c.sum fun _ r => r.award.toInt

/-- The shares and their pledges are the same, whatever is summed up of them. -/
def SameShares (c c' : Records Address Cobuilder) : Prop :=
  ∀ q : Int64 → Bool → ℤ, c'.sum (fun _ r => q r.share r.pledged) = c.sum fun _ r => q r.share r.pledged

section Sums
variable {c c' c'' : Records Address Cobuilder} {a : Address} {r : Cobuilder}

theorem SameShares.trans (h : SameShares c c') (h' : SameShares c' c'') : SameShares c c'' :=
  fun q => (h' q).trans (h q)

theorem SameShares.shares_eq (h : SameShares c c') : shares c' = shares c := h fun n _ => n.toInt

theorem SameShares.pledgedShares_eq (h : SameShares c c') : pledgedShares c' = pledgedShares c :=
  h fun n pledged => if pledged then n.toInt else 0

theorem SameShares.unpledgedShares_eq (h : SameShares c c') : unpledgedShares c' = unpledgedShares c :=
  h fun n pledged => if pledged then 0 else n.toInt

theorem sameShares_insert (hr : c.lookup a = some r) (award : Int64) :
    SameShares c (c.insert a { r with award := award }) := by
  intro q
  rw [Records.sum_insert, Records.share_some hr, sub_add_cancel]

theorem awards_insert (hr : c.lookup a = some r) (award : Int64) :
    awards (c.insert a { r with award := award }) = awards c - r.award.toInt + award.toInt := by
  rw [awards, Records.sum_insert, Records.share_some hr]
  rfl

theorem shares_eq_add (c : Records Address Cobuilder) : shares c = pledgedShares c + unpledgedShares c := by
  rw [shares, pledgedShares, unpledgedShares, ← sum_add]
  refine sum_congr fun _ r _ => ?_
  cases r.pledged
  · simp
  · simp

/-- The cobuilders with all shares pledged, or with none. -/
def marked (pledged : Bool) (c : Records Address Cobuilder) : Records Address Cobuilder :=
  c.map fun _ r => { r with pledged := pledged }

theorem shares_marked (pledged : Bool) (c : Records Address Cobuilder) : shares (marked pledged c) = shares c :=
  sum_map ..

theorem awards_marked (pledged : Bool) (c : Records Address Cobuilder) : awards (marked pledged c) = awards c :=
  sum_map ..

theorem pledgedShares_marked_true (c : Records Address Cobuilder) : pledgedShares (marked true c) = shares c :=
  sum_map ..

theorem pledgedShares_marked_false (c : Records Address Cobuilder) : pledgedShares (marked false c) = 0 := by
  rw [pledgedShares, marked, sum_map]
  simp [sum]

theorem unpledgedShares_marked_true (c : Records Address Cobuilder) : unpledgedShares (marked true c) = 0 := by
  rw [unpledgedShares, marked, sum_map]
  simp [sum]

theorem unpledgedShares_marked_false (c : Records Address Cobuilder) : unpledgedShares (marked false c) = shares c :=
  sum_map ..

end Sums

/-- The recorded numbers of shares are right, and beyond the reserve the contract has the coins of the shares that are
not pledged and of the awards. -/
structure Books (reserve : ℤ) (s : Cobuild) : Prop where
  unit : 0 ≤ s.cfg.unit.toInt
  idle : s.states.applied = false → s.states.pledgedShares = 0
  all : s.states.allShares.toInt = shares s.cobuilders
  pledged : s.states.pledgedShares.toInt = pledgedShares s.cobuilders
  covered : reserve + s.cfg.unit.toInt * unpledgedShares s.cobuilders + awards s.cobuilders ≤ s.balance.toInt

section Books
variable {h : Host} {m : Call} {s t : Cobuild} {reserve : ℤ}

theorem Books.of_same {reserve' : ℤ} (hs : Books reserve s) (hcfg : t.cfg = s.cfg) (hstates : t.states = s.states)
    (hsame : SameShares s.cobuilders t.cobuilders)
    (hcoins : s.balance.toInt - awards s.cobuilders + reserve' ≤ t.balance.toInt - awards t.cobuilders + reserve) :
    Books reserve' t where
  unit := by rw [hcfg]; exact hs.unit
  idle := by rw [hstates]; exact hs.idle
  all := by rw [hstates, hsame.shares_eq]; exact hs.all
  pledged := by rw [hstates, hsame.pledgedShares_eq]; exact hs.pledged
  covered := by
    have hcovered := hs.covered
    rw [hcfg, hsame.unpledgedShares_eq]
    omega

variable {amount : Int64}

theorem Books.paid (hs : Books (reserve + amount.toInt) s) (hpaid : Paid amount s t) :
    Books reserve t := by
  obtain ⟨balance, hbalance, rfl⟩ := hpaid
  refine hs.of_same rfl rfl (fun _ => rfl) ?_
  dsimp only
  omega

theorem Books.credited {amount balance : Int64} (hs : Books reserve s)
    (hbalance : balance.toInt = s.balance.toInt + amount.toInt) :
    Books (reserve + amount.toInt) { s with balance := balance } := by
  refine hs.of_same rfl rfl (fun _ => rfl) ?_
  dsimp only
  omega

/-! ### Rewards -/

theorem rewarded_spec {unitReward : Int64} {r r' : Cobuilder} (hunit : 0 ≤ unitReward.toInt)
    (hr : rewarded unitReward r = some r') :
    r'.share = r.share ∧ r'.pledged = r.pledged ∧
      r'.award.toInt = r.award.toInt + unitReward.toInt * if r.pledged then r.share.toInt else 0 := by
  unfold rewarded at hr
  split at hr
  · rename_i hpledged
    obtain ⟨each, heach, hr⟩ := bind_eq_some_iff.mp hr
    obtain ⟨award, haward, hr⟩ := bind_eq_some_iff.mp hr
    cases hr
    refine ⟨rfl, rfl, ?_⟩
    rw [if_pos hpledged, ← int64Mul_toInt hunit heach]
    exact int64Add_toInt haward
  · rename_i hpledged
    cases hr
    rw [if_neg hpledged, mul_zero, add_zero]
    exact ⟨rfl, rfl, rfl⟩

/-- Nobody's shares or pledge have changed. -/
structure Kept (s t : Cobuild) : Prop where
  cfg : t.cfg = s.cfg
  states : t.states = s.states
  lookup : ∀ a r, t.cobuilders.lookup a = some r →
    ∃ r₀, s.cobuilders.lookup a = some r₀ ∧ r.share = r₀.share ∧ r.pledged = r₀.pledged

theorem Kept.refl (s : Cobuild) : Kept s s := ⟨rfl, rfl, fun _ r hr => ⟨r, hr, rfl, rfl⟩⟩

theorem Kept.trans {u : Cobuild} (h₁ : Kept s t) (h₂ : Kept t u) : Kept s u := by
  refine ⟨h₂.cfg.trans h₁.cfg, h₂.states.trans h₁.states, fun a r hr => ?_⟩
  obtain ⟨r₁, hr₁, hshare, hpledged⟩ := h₂.lookup a r hr
  obtain ⟨r₀, hr₀, hshare', hpledged'⟩ := h₁.lookup a r₁ hr₁
  exact ⟨r₀, hr₀, hshare.trans hshare', hpledged.trans hpledged'⟩

theorem distribute_spec (hrun : distribute h m amount s = some t) :
    Kept s t ∧ t.balance = s.balance ∧ SameShares s.cobuilders t.cobuilders ∧
      (s.states.pledgedShares.toInt = pledgedShares s.cobuilders →
        awards t.cobuilders = awards s.cobuilders + amount.toInt) := by
  obtain ⟨-, hrun⟩ := of_guard hrun
  obtain ⟨unitReward, hunitReward, hrun⟩ := bind_eq_some_iff.mp hrun
  obtain ⟨c, hc, hrun⟩ := bind_eq_some_iff.mp hrun
  obtain ⟨left, hleft, hrun⟩ := bind_eq_some_iff.mp hrun
  obtain ⟨r, hr, hrun⟩ := bind_eq_some_iff.mp hrun
  obtain ⟨award, haward, hrun⟩ := bind_eq_some_iff.mp hrun
  obtain rfl := eq_of_saveCobuilders hrun
  have hunit : 0 ≤ unitReward.toInt := by
    obtain ⟨hamount, hpos, hquot⟩ := int64Div_toInt hunitReward
    rw [hquot]
    exact Int.ediv_nonneg hamount hpos.le
  have hrewards : SameShares s.cobuilders c := by
    intro q
    refine sum_traverse hc fun _ r r' _ hr' => ?_
    obtain ⟨hshare, hpledged, -⟩ := rewarded_spec hunit hr'
    rw [hshare, hpledged]
  have hsum : awards c = awards s.cobuilders + unitReward.toInt * pledgedShares s.cobuilders := by
    rw [awards, awards, pledgedShares, ← sum_mul, ← sum_add]
    exact sum_traverse hc fun _ r r' _ hr' => (rewarded_spec hunit hr').2.2
  have hlookup : ∀ a r, c.lookup a = some r →
      ∃ r₀, s.cobuilders.lookup a = some r₀ ∧ r.share = r₀.share ∧ r.pledged = r₀.pledged := by
    intro a r' hr'
    obtain ⟨hsome, rfl⟩ := eq_of_traverse hc
    rw [lookup_map] at hr'
    obtain ⟨r₀, hr₀, hget⟩ := Option.map_eq_some_iff.mp hr'
    obtain ⟨r₁, hr₁⟩ := hsome a r₀ hr₀
    rw [hr₁] at hget
    obtain rfl := hget
    obtain ⟨hshare, hpledged, -⟩ := rewarded_spec hunit hr₁
    exact ⟨r₀, hr₀, hshare, hpledged⟩
  refine ⟨⟨rfl, rfl, fun a r' hr' => ?_⟩, rfl, hrewards.trans (sameShares_insert hr award), fun hpledged => ?_⟩
  · rcases lookup_insert_cases hr' with ⟨rfl, rfl⟩ | ⟨-, hold⟩
    · exact hlookup _ r hr
    · exact hlookup a r' hold
  · have hparts := div_mod_toInt hunitReward hleft
    rw [hpledged] at hparts
    rw [awards_insert hr award, int64Add_toInt haward, hsum, ← hparts]
    ring

theorem Books.distribute (hs : Books (reserve + amount.toInt) s)
    (hrun : distribute h m amount s = some t) : Books reserve t := by
  obtain ⟨hkept, hbalance, hsame, hawards⟩ := distribute_spec hrun
  refine hs.of_same hkept.cfg hkept.states hsame ?_
  rw [hawards hs.pledged, hbalance]
  omega

theorem Books.reply_reward (hs : Books reserve s) (hreply : reply h m dposContract amount .reward s = some t) :
    Books reserve t := by
  obtain ⟨balance, hamount, hbalance, rfl | hrun⟩ := Cobuild.reply_reward hreply
  · refine hs.of_same rfl rfl (fun _ => rfl) ?_
    dsimp only
    omega
  · exact (hs.credited hbalance).distribute hrun

theorem kept_of_reply (hreply : reply h m dposContract amount .reward s = some t) : Kept s t := by
  obtain ⟨balance, -, -, rfl | hrun⟩ := Cobuild.reply_reward hreply
  · exact ⟨rfl, rfl, fun _ r hr => ⟨r, hr, rfl, rfl⟩⟩
  · obtain ⟨⟨hcfg, hstates, hlookup⟩, -⟩ := distribute_spec hrun
    exact ⟨hcfg, hstates, hlookup⟩

theorem Books.released {amount : ℤ} (hs : Books (reserve + amount) s)
    (hrefund : s.cfg.unit.toInt * s.states.pledgedShares.toInt ≤ amount) : Books reserve (releaseAll s) := by
  have hcovered := hs.covered
  refine ⟨hs.unit, fun _ => rfl, ?_, ?_, ?_⟩
  · exact hs.all.trans (shares_marked false s.cobuilders).symm
  · exact (pledgedShares_marked_false s.cobuilders).symm
  · change reserve + s.cfg.unit.toInt * unpledgedShares (marked false s.cobuilders) +
      awards (marked false s.cobuilders) ≤ s.balance.toInt
    rw [unpledgedShares_marked_false, awards_marked, shares_eq_add, ← hs.pledged, mul_add]
    omega

theorem Books.pledgedAll {amount : ℤ} (hs : Books reserve s)
    (hamount : amount ≤ s.cfg.unit.toInt * unpledgedShares s.cobuilders) : Books (reserve + amount) (pledgeAll s) := by
  have hcovered := hs.covered
  refine ⟨hs.unit, nofun, ?_, ?_, ?_⟩
  · exact hs.all.trans (shares_marked true s.cobuilders).symm
  · exact hs.all.trans (pledgedShares_marked_true s.cobuilders).symm
  · change reserve + amount + s.cfg.unit.toInt * unpledgedShares (marked true s.cobuilders) +
      awards (marked true s.cobuilders) ≤ s.balance.toInt
    rw [unpledgedShares_marked_true, awards_marked, mul_zero]
    omega

/-! ### Calls of the DPoS contract -/

theorem Books.refunded (hs : Books reserve s) (hrefund : s.cfg.unit.toInt * s.states.pledgedShares.toInt ≤ amount.toInt)
    (hreply : reply h m dposContract amount .refund s = some t) : Books reserve t := by
  obtain ⟨balance, hamount, hbalance, rfl | rfl⟩ := reply_refund hreply
  · refine hs.of_same rfl rfl (fun _ => rfl) ?_
    dsimp only
    omega
  · exact (hs.credited hbalance).released hrefund

/-- While the DPoS contract pays rewards, nobody looks the contract up or calls it. -/
def Quiet (m : Call) : Prop := ∀ answer ∈ m.answer, ∀ r ∈ answer.replies, ∃ amount, r = .reward amount

variable {last : Cobuild}

theorem replies_spec {replies : List Reply} (hquiet : ∀ r ∈ replies, ∃ amount, r = .reward amount)
    (hrun : replies.foldlM (replied h m last) s = some t) :
    Kept s t ∧ ∀ reserve, Books reserve s → Books reserve t := by
  refine Script.foldlM_keeps (I := fun s t => Kept s t ∧ ∀ reserve, Books reserve s → Books reserve t)
    (fun s => ⟨.refl s, fun _ => id⟩) ?_ (fun r hr s t hreply => ?_) hrun
  · rintro s t u ⟨hkept, hbooks⟩ ⟨hkept', hbooks'⟩
    exact ⟨hkept.trans hkept', fun reserve hs => hbooks' reserve (hbooks reserve hs)⟩
  · obtain ⟨amount, rfl⟩ := hquiet r hr
    exact ⟨kept_of_reply hreply, fun _ hs => hs.reply_reward hreply⟩

/-- What the DPoS contract gives back covers the pledged shares. -/
def Repays (m : Call) (s : Cobuild) : Prop :=
  ∀ amount ∈ m.answer.bind Answer.refund, s.cfg.unit.toInt * s.states.pledgedShares.toInt ≤ amount.toInt

theorem Books.called {input : Request} (hs : Books (reserve + amount.toInt) s) (hquiet : Quiet m)
    (hcall : callDPOS h m last amount input s = some t) (hrefund : ∀ role, input = .withdraw role → Repays m s) :
    Books reserve t := by
  obtain ⟨answer, s₁, hanswer, ⟨balance, hbalance, rfl⟩, hcall⟩ := callDPOS_cases hcall
  have hpaid : Books reserve { s with balance := balance, requests := s.requests ++ [(amount, input)] } := by
    refine hs.of_same rfl rfl (fun _ => rfl) ?_
    dsimp only
    omega
  cases input with
  | extract => exact (replies_spec (hquiet answer hanswer) hcall).2 reserve hpaid
  | withdraw role =>
    rcases answered_withdraw hcall with rfl | ⟨refund, hrefunded, hreply⟩
    · exact hpaid
    · have hamount : refund ∈ m.answer.bind Answer.refund := by rwa [hanswer]
      exact hpaid.refunded (hrefund role rfl refund hamount) hreply
  | _ =>
    cases hcall
    exact hpaid

theorem Books.asked {input : Request} (hs : Books reserve s) (hquiet : Quiet m)
    (hcall : callDPOS h m last 0 input s = some t) (hrefund : ∀ role, input = .withdraw role → Repays m s) :
    Books reserve t := by
  refine Books.called ?_ hquiet hcall hrefund
  rwa [Int64.toInt_zero, add_zero]

theorem kept_of_extract (hquiet : Quiet m) (hcall : callDPOS h m last 0 .extract s = some t) : Kept s t := by
  obtain ⟨answer, s₁, hanswer, ⟨balance, -, rfl⟩, hcall⟩ := callDPOS_cases hcall
  obtain ⟨⟨hcfg, hstates, hlookup⟩, -⟩ := replies_spec (hquiet answer hanswer) hcall
  exact ⟨hcfg, hstates, hlookup⟩

/-! ### Shares that change hands -/

/-- Pledged shares have been taken from an account, with what has been awarded; the account `a` that gets them has
pledged what it has. -/
structure Taken (a : Address) (n gain : ℤ) (c c' : Records Address Cobuilder) : Prop where
  shares : shares c' = Cobuild.shares c - n
  pledged : pledgedShares c' = pledgedShares c - n
  unpledged : unpledgedShares c' = unpledgedShares c
  awards : awards c' = Cobuild.awards c - gain
  own : ∀ r, c'.lookup a = some r → r.pledged = true

variable {c : Records Address Cobuilder} {r : Cobuilder}

theorem taken_erase {a transferor : Address} (hr : c.lookup transferor = some r) (hpledged : r.pledged = true)
    (hown : ∀ own, c.lookup a = some own → own.pledged = true) :
    Taken a r.share.toInt r.award.toInt c (c.erase transferor) where
  shares := by rw [shares, Records.sum_erase, Records.share_some hr, shares]
  pledged := by rw [pledgedShares, Records.sum_erase, Records.share_some hr, if_pos hpledged, pledgedShares]
  unpledged := by
    rw [unpledgedShares, Records.sum_erase, Records.share_some hr, if_pos hpledged, sub_zero, unpledgedShares]
  awards := by rw [awards, Records.sum_erase, Records.share_some hr, awards]
  own own hlookup := hown own (Records.lookup_erase_cases hlookup).2

theorem taken_insert {a transferor : Address} {rest shares : Int64}
    (hr : c.lookup transferor = some r) (hpledged : r.pledged = true)
    (hrest : rest.toInt = r.share.toInt - shares.toInt) (hown : ∀ own, c.lookup a = some own → own.pledged = true) :
    Taken a shares.toInt 0 c (c.insert transferor { r with share := rest }) where
  shares := by
    rw [Cobuild.shares, Records.sum_insert, Records.share_some hr, Cobuild.shares, hrest]
    ring
  pledged := by
    rw [pledgedShares, Records.sum_insert, Records.share_some hr, if_pos hpledged, if_pos hpledged, pledgedShares,
      hrest]
    ring
  unpledged := by
    rw [unpledgedShares, Records.sum_insert, Records.share_some hr, if_pos hpledged, if_pos hpledged, unpledgedShares]
    ring
  awards := by
    rw [awards, Records.sum_insert, Records.share_some hr, awards]
    ring
  own own hlookup := by
    rcases Records.lookup_insert_cases hlookup with ⟨-, rfl⟩ | ⟨-, hold⟩
    · exact hpledged
    · exact hown own hold

variable {a : Address} {entry : Cobuilder}

theorem accepted_spec {shares : Int64}
    (hentry : accepted shares (c.lookup a) = some entry) (hown : ∀ r, c.lookup a = some r → r.pledged = true) :
    entry.pledged = true ∧ entry.share.toInt = c.share (fun _ r => r.share.toInt) a + shares.toInt ∧
      entry.award.toInt = c.share (fun _ r => r.award.toInt) a ∧
      c.share (fun _ r => if r.pledged then r.share.toInt else 0) a = c.share (fun _ r => r.share.toInt) a ∧
      c.share (fun _ r => if r.pledged then 0 else r.share.toInt) a = 0 := by
  rcases hlookup : c.lookup a with - | r
  · rw [hlookup] at hentry
    cases hentry
    simp [Records.share_none hlookup, cobuilder]
  · rw [hlookup] at hentry
    obtain ⟨share, hshare, hentry⟩ := bind_eq_some_iff.mp hentry
    cases hentry
    simp [Records.share_some hlookup, hown r hlookup, int64Add_toInt hshare]

theorem Taken.accepted {shares : Int64} {gain : ℤ} {c c' : Records Address Cobuilder}
    (htaken : Taken a shares.toInt gain c c') (hentry : accepted shares (c'.lookup a) = some entry) :
    Cobuild.shares (c'.insert a entry) = Cobuild.shares c ∧ pledgedShares (c'.insert a entry) = pledgedShares c ∧
      unpledgedShares (c'.insert a entry) = unpledgedShares c ∧
      Cobuild.awards (c'.insert a entry) = Cobuild.awards c - gain := by
  obtain ⟨hpledged, hshare, haward, hown, hnone⟩ := accepted_spec hentry htaken.own
  have hshares := htaken.shares
  have hpledgeds := htaken.pledged
  have hunpledged := htaken.unpledged
  have hawards := htaken.awards
  unfold Cobuild.shares pledgedShares unpledgedShares Cobuild.awards at *
  rw [Records.sum_insert, Records.sum_insert, Records.sum_insert, Records.sum_insert, if_pos hpledged, if_pos hpledged]
  exact ⟨by omega, by omega, by omega, by omega⟩

theorem Books.accepted {shares amount gain : Int64}
    {transfers : Records (Address × Address) Int64} {price : Int64} (hs : Books (reserve + price.toInt) s)
    (htaken : Taken a shares.toInt gain.toInt s.cobuilders c) (hentry : accepted shares (c.lookup a) = some entry)
    (hamount : int64Add price gain = some amount)
    (hpaid : Paid amount { s with transfers := transfers, cobuilders := c.insert a entry } t) : Books reserve t := by
  obtain ⟨hshares, hpledged, hunpledged, hawards⟩ := htaken.accepted hentry
  refine Books.paid ?_ hpaid
  refine ⟨hs.unit, hs.idle, hs.all.trans hshares.symm, hs.pledged.trans hpledged.symm, ?_⟩
  have hcovered := hs.covered
  dsimp only
  rw [hunpledged, hawards, int64Add_toInt hamount]
  omega

/-- Awards have been paid: only the balance and the awards have changed, and they by the same. -/
structure PaidOut (e e' : Records Address Cobuilder × Cobuild) : Prop where
  rest : ∃ balance, { e.2 with balance := balance } = e'.2
  same : SameShares e.1 e'.1
  coins : e'.2.balance.toInt - awards e'.1 = e.2.balance.toInt - awards e.1

theorem PaidOut.refl (e : Records Address Cobuilder × Cobuild) : PaidOut e e := ⟨⟨_, rfl⟩, fun _ => rfl, rfl⟩

theorem PaidOut.trans {e e' e'' : Records Address Cobuilder × Cobuild} (h₁ : PaidOut e e') (h₂ : PaidOut e' e'') :
    PaidOut e e'' := by
  obtain ⟨balance, hbalance⟩ := h₁.rest
  obtain ⟨balance', hbalance'⟩ := h₂.rest
  refine ⟨⟨balance', ?_⟩, h₁.same.trans h₂.same, h₂.coins.trans h₁.coins⟩
  rw [← hbalance', ← hbalance]

theorem paidOut_of_extractOne {e e' : Records Address Cobuilder × Cobuild}
    (hrun : extractOne h m e a = some e') : PaidOut e e' := by
  obtain ⟨r, hr, hrun⟩ := bind_eq_some_iff.mp hrun
  obtain ⟨s', hpay, hrun⟩ := bind_eq_some_iff.mp hrun
  cases hrun
  obtain ⟨balance, hbalance, rfl⟩ := paid_of_transferCoin hpay
  refine ⟨⟨balance, rfl⟩, sameShares_insert hr 0, ?_⟩
  dsimp only
  rw [awards_insert hr, Int64.toInt_zero]
  omega

theorem extracted_spec {list : Option (List Address)} (hpay : coExtract h (fun _ _ s => some s) m list s = some t) :
    ∃ c balance, { s with cobuilders := c, balance := balance } = t ∧ SameShares s.cobuilders c ∧
      balance.toInt - awards c = s.balance.toInt - awards s.cobuilders := by
  unfold coExtract at hpay
  rw [Option.bind_eq_bind, Option.bind_some] at hpay
  rcases list with - | list
  · obtain ⟨r, hr, hpay⟩ := bind_eq_some_iff.mp hpay
    obtain ⟨s', hsave, hpay⟩ := bind_eq_some_iff.mp hpay
    obtain rfl := eq_of_saveCobuilders hsave
    obtain ⟨balance, hbalance, rfl⟩ := paid_of_transferCoin hpay
    refine ⟨_, balance, rfl, sameShares_insert hr 0, ?_⟩
    dsimp only at hbalance
    rw [awards_insert hr, Int64.toInt_zero]
    omega
  · obtain ⟨-, hpay⟩ := of_guard hpay
    obtain ⟨⟨c, s'⟩, hloop, hpay⟩ := bind_eq_some_iff.mp hpay
    obtain rfl := eq_of_saveCobuilders hpay
    have hpaid : PaidOut (s.cobuilders, s) (c, s') :=
      Script.foldlM_keeps (I := PaidOut) .refl (fun _ _ _ => .trans) (fun _ _ _ _ => paidOut_of_extractOne) hloop
    obtain ⟨⟨balance, rfl⟩, hsame, hcoins⟩ := hpaid
    exact ⟨c, balance, rfl, hsame, hcoins⟩

theorem Books.extracted {list : Option (List Address)} (hs : Books reserve s)
    (hpay : coExtract h (fun _ _ s => some s) m list s = some t) : Books reserve t := by
  obtain ⟨c, balance, rfl, hsame, hcoins⟩ := extracted_spec hpay
  refine hs.of_same rfl rfl hsame ?_
  dsimp only
  omega

/-! ### Histories -/

def Input.isAccept : Input → Bool
  | .accept _ => true
  | _ => false

/-- Whoever accepts shares has pledged what it has, what the DPoS contract gives back covers the pledged shares, and
while it pays rewards nobody calls. -/
def Orderly (s : Cobuild) (m : Call) : Prop :=
  Quiet m ∧ (m.input.isAccept = true → ∀ own ∈ s.cobuilders.lookup m.txSender, own.pledged = true) ∧
    (m.input = .refund → s.cfg.unit.toInt * s.states.pledgedShares.toInt ≤ m.coinAmount.toInt) ∧ Repays m s

theorem Books.mono {reserve' : ℤ} (hs : Books reserve s) (hle : reserve' ≤ reserve) : Books reserve' s :=
  hs.of_same rfl rfl (fun _ => rfl) (by omega)

theorem Books.subscribed {price shares all : Int64}
    (hs : Books (reserve + price.toInt) s) (hprice : int64Mul s.cfg.unit shares = some price)
    (hentry : subscribed shares (s.cobuilders.lookup a) = some entry)
    (hall : int64Add s.states.allShares shares = some all) :
    Books reserve
      { s with states := { s.states with allShares := all }, cobuilders := s.cobuilders.insert a entry } := by
  have hspec : entry.pledged = false ∧
      entry.share.toInt = s.cobuilders.share (fun _ r => r.share.toInt) a + shares.toInt ∧
      entry.award.toInt = s.cobuilders.share (fun _ r => r.award.toInt) a ∧
      s.cobuilders.share (fun _ r => if r.pledged then r.share.toInt else 0) a = 0 ∧
      s.cobuilders.share (fun _ r => if r.pledged then 0 else r.share.toInt) a =
        s.cobuilders.share (fun _ r => r.share.toInt) a := by
    rcases hlookup : s.cobuilders.lookup a with - | r
    · rw [hlookup] at hentry
      cases hentry
      simp [Records.share_none hlookup, cobuilder]
    · rw [hlookup] at hentry
      obtain ⟨hpledged, hentry⟩ := of_guard hentry
      obtain ⟨share, hshare, hentry⟩ := bind_eq_some_iff.mp hentry
      cases hentry
      simp [Records.share_some hlookup, hpledged, int64Add_toInt hshare]
  obtain ⟨hpledged, hshare, haward, hnone, hown⟩ := hspec
  have hcoins := int64Mul_toInt hs.unit hprice
  have hcovered := hs.covered
  have htotal := hs.all
  have hpledges := hs.pledged
  unfold Cobuild.shares at htotal
  unfold pledgedShares at hpledges
  unfold unpledgedShares awards at hcovered
  refine ⟨hs.unit, hs.idle, ?_, ?_, ?_⟩
  · dsimp only
    rw [Cobuild.shares, Records.sum_insert, int64Add_toInt hall]
    omega
  · dsimp only
    rw [pledgedShares, Records.sum_insert, hpledged, if_neg Bool.false_ne_true]
    omega
  · dsimp only
    rw [unpledgedShares, awards, Records.sum_insert, Records.sum_insert, hpledged, if_neg Bool.false_ne_true, hown,
      hshare, haward, mul_add, mul_sub, mul_add]
    omega

theorem Books.revoked {stake : Cobuilder} {all price amount : Int64} (hs : Books reserve s)
    (hstake : s.cobuilders.lookup a = some stake) (hpledged : stake.pledged = false)
    (hall : int64Sub s.states.allShares stake.share = some all)
    (hprice : int64Mul s.cfg.unit stake.share = some price) (hamount : int64Add price stake.award = some amount)
    (hpaid : Paid amount
      { s with states := { s.states with allShares := all }, cobuilders := s.cobuilders.erase a } t) :
    Books reserve t := by
  have hcoins := int64Mul_toInt hs.unit hprice
  have hcovered := hs.covered
  refine Books.paid ?_ hpaid
  refine ⟨hs.unit, hs.idle, ?_, ?_, ?_⟩
  · dsimp only
    rw [shares, Records.sum_erase, Records.share_some hstake, int64Sub_toInt hall, hs.all, shares]
  · dsimp only
    rw [pledgedShares, Records.sum_erase, Records.share_some hstake, hpledged, if_neg Bool.false_ne_true, sub_zero]
    exact hs.pledged
  · unfold unpledgedShares awards at hcovered
    dsimp only
    rw [unpledgedShares, awards, Records.sum_erase, Records.sum_erase, Records.share_some hstake,
      Records.share_some hstake, hpledged, if_neg Bool.false_ne_true, int64Add_toInt hamount, hcoins, mul_sub]
    omega

theorem Books.taken {transferor : Address} {shares gain : Int64} {s₁ : Cobuild} (hs : Books reserve s) (hquiet : Quiet m)
    (hr : s.cobuilders.lookup transferor = some r) (hpledged : r.pledged = true)
    (hown : ∀ own, s.cobuilders.lookup m.txSender = some own → own.pledged = true)
    (htake : takeShares (callDPOS h m last) m transferor r shares s = some (s₁, c, gain)) :
    Books reserve s₁ ∧ Taken m.txSender shares.toInt gain.toInt s₁.cobuilders c ∧ Kept s s₁ := by
  obtain ⟨rest, hrest, htake⟩ := bind_eq_some_iff.mp htake
  split at htake
  · rename_i hzero
    obtain ⟨s', hcall, htake⟩ := bind_eq_some_iff.mp htake
    obtain ⟨r', hr', htake⟩ := bind_eq_some_iff.mp htake
    obtain ⟨rfl, rfl, rfl⟩ : s' = s₁ ∧ s'.cobuilders.erase transferor = c ∧ r'.award = gain := by
      simpa using htake
    have hkept := kept_of_extract hquiet hcall
    obtain ⟨r₀, hr₀, hshare, hpledged'⟩ := hkept.lookup transferor r' hr'
    obtain rfl := Option.some.inj (hr.symm.trans hr₀)
    have hall : r'.share.toInt = shares.toInt := by
      have hdiff := int64Sub_toInt hrest
      rw [hzero, Int64.toInt_zero] at hdiff
      rw [hshare]
      omega
    refine ⟨hs.asked hquiet hcall (fun _ hinput => nomatch hinput), ?_, hkept⟩
    rw [← hall]
    refine taken_erase hr' (hpledged'.trans hpledged) fun own hlookup => ?_
    obtain ⟨own₀, hown₀, -, hsame⟩ := hkept.lookup _ own hlookup
    exact hsame.trans (hown own₀ hown₀)
  · obtain ⟨-, htake⟩ := of_guard htake
    obtain ⟨rfl, rfl, rfl⟩ : s = s₁ ∧ s.cobuilders.insert transferor { r with share := rest } = c ∧ 0 = gain := by
      simpa using htake
    exact ⟨hs, taken_insert hr hpledged (int64Sub_toInt hrest) hown, .refl s⟩

theorem Step.books (hstep : Step h (callDPOS h m last) m s t) (horderly : Orderly s m) (hcoins : 0 ≤ m.coinAmount.toInt)
    (hs : Books (reserve + m.coinAmount.toInt) s) : Books reserve t := by
  obtain ⟨hquiet, haccepts, hrefund, hrepays⟩ := horderly
  have hs' : Books reserve s := hs.mono (by omega)
  cases hstep with
  | idle => exact hs'
  | subscribe hprice hentry hall => exact hs.subscribed hprice hentry hall
  | revoke hstake hpledged hall hprice hamount hpaid => exact hs'.revoked hstake hpledged hall hprice hamount hpaid
  | @coApply role input amount t happlied hraise hamount hcall hinput =>
    have hzero : pledgedShares s.cobuilders = 0 := by
      rw [← hs.pledged, hs.idle happlied, Int64.toInt_zero]
    have hprice := int64Mul_toInt hs.unit hamount
    rw [hs.all, shares_eq_add, hzero, zero_add] at hprice
    have hroled : Books reserve { s with states := { s.states with role := some role } } :=
      ⟨hs'.unit, hs'.idle, hs'.all, hs'.pledged, hs'.covered⟩
    exact (hroled.pledgedAll hprice.le).called hquiet hcall fun role' hrole => absurd hrole (hinput role')
  | @coAppend shares amount t happlied hshares hamount hcall =>
    have hprice := int64Mul_toInt hs.unit hamount
    rw [int64Sub_toInt hshares, hs.all, hs.pledged, shares_eq_add, add_sub_cancel_left] at hprice
    exact (hs'.pledgedAll hprice.le).called hquiet hcall fun _ hrole => nomatch hrole
  | ask hcall => exact hs'.asked hquiet hcall fun _ _ => hrepays
  | transfer transfers => exact ⟨hs'.unit, hs'.idle, hs'.all, hs'.pledged, hs'.covered⟩
  | accept hinput hr hpledged hprice htake hentry hamount hpaid =>
    have haccept : m.input.isAccept = true := by rw [hinput]; rfl
    obtain ⟨hbooks, htaken, -⟩ := hs.taken hquiet hr hpledged (haccepts haccept) htake
    exact hbooks.accepted htaken hentry hamount hpaid
  | coExtract hcall hpay => exact (hs'.asked hquiet hcall (fun _ hinput => nomatch hinput)).extracted hpay
  | disband happlied => exact ⟨hs'.unit, hs'.idle, hs'.all, hs'.pledged, hs'.covered⟩
  | withdraw happlied hp hcall =>
    have hsaved : ∀ p, Books reserve { s with withdraw := some p } :=
      fun _ => ⟨hs'.unit, hs'.idle, hs'.all, hs'.pledged, hs'.covered⟩
    exact (hsaved _).asked hquiet hcall fun _ _ => hrepays
  | poll hr hp hfirst hsum => exact ⟨hs'.unit, hs'.idle, hs'.all, hs'.pledged, hs'.covered⟩
  | pollWithdraw hr hp hfirst hsum hcall =>
    have hsaved : ∀ p, Books reserve { s with withdraw := some p } :=
      fun _ => ⟨hs'.unit, hs'.idle, hs'.all, hs'.pledged, hs'.covered⟩
    exact (hsaved _).asked hquiet hcall fun _ _ => hrepays
  | reward hrun => exact hs.distribute hrun
  | refund hinput => exact hs.released (hrefund hinput)

theorem books_init {coinAmount baseReserve : Int64} {params : Params}
    (hinit : init h a coinAmount baseReserve params = some s) : Books baseReserve.toInt s := by
  obtain ⟨odd, -, hinit⟩ := bind_eq_some_iff.mp hinit
  obtain ⟨⟨-, hunit⟩, hinit⟩ := of_guard hinit
  obtain ⟨-, hinit⟩ := of_guard hinit
  obtain ⟨fund, hfund, hinit⟩ := bind_eq_some_iff.mp hinit
  obtain ⟨-, hinit⟩ := of_guard hinit
  obtain ⟨rest, hrest, hinit⟩ := bind_eq_some_iff.mp hinit
  obtain ⟨hzero, hinit⟩ := of_guard hinit
  obtain ⟨share, hshare, hinit⟩ := bind_eq_some_iff.mp hinit
  obtain rfl := eq_of_saveCobuilders hinit
  have hpositive : 0 ≤ params.unit.toInt := le_trans (by decide) (Int64.le_iff_toInt_le.mp hunit)
  have hparts := div_mod_toInt hshare hrest
  rw [hzero, Int64.toInt_zero, add_zero, int64Sub_toInt hfund] at hparts
  refine ⟨hpositive, fun _ => rfl, ?_, ?_, ?_⟩
  · exact (sum_singleton _ _ _).symm
  · exact (sum_singleton _ _ _).symm
  · have hunpledged :
        unpledgedShares ((∅ : Records Address Cobuilder).insert a (cobuilder share false)) = share.toInt :=
      sum_singleton _ _ _
    have hawards : awards ((∅ : Records Address Cobuilder).insert a (cobuilder share false)) = 0 := sum_singleton _ _ _
    dsimp only
    rw [hunpledged, hawards, hparts]
    omega

theorem Books.step (hs : Books reserve s) (horderly : Orderly s m) (hrun : step h last s m = some t) :
    Books reserve t := by
  obtain ⟨balance, hcoins, hbalance, hstep⟩ := step_of_main hrun
  exact hstep.books horderly hcoins (hs.credited hbalance)

theorem Books.back {now : Cobuild} (hs : Books reserve last) : Books reserve (back last now) :=
  ⟨hs.unit, hs.idle, hs.all, hs.pledged, hs.covered⟩

end Books

/-- After any orderly calls the recorded shares are the sums over the cobuilders, and beyond the base reserve the
contract has the coins of all shares that are not pledged and of all awards. -/
theorem shares_and_coins (h : Host) (initiator : Address) (coinAmount baseReserve : Int64) (params : Params) (s : Cobuild)
    (hinit : init h initiator coinAmount baseReserve params = some s) (events : List (LedgerEvent Call))
    (horderly : Ledgered.Along back (step h) Orderly ⟨s, s⟩ events) (t : Ledgered Cobuild)
    (hrun : run h ⟨s, s⟩ events = some t) :
    t.now.states.allShares.toInt = shares t.now.cobuilders ∧
      t.now.states.pledgedShares.toInt = pledgedShares t.now.cobuilders ∧
      baseReserve.toInt + t.now.cfg.unit.toInt * unpledgedShares t.now.cobuilders + awards t.now.cobuilders ≤
        t.now.balance.toInt := by
  have hback (last now : Cobuild) (hlast : Books baseReserve.toInt last) (_ : Books baseReserve.toInt now) :
      Books baseReserve.toInt (back last now) := hlast.back
  have hcall (last now : Cobuild) (m : Call) (u : Cobuild) (_ : .call m ∈ events) (hm : Orderly now m)
      (_ : Books baseReserve.toInt last) (hnow : Books baseReserve.toInt now) (hu : step h last now m = some u) :
      Books baseReserve.toInt u := hnow.step hm hu
  have hstart := books_init hinit
  obtain ⟨-, hbooks⟩ := Ledgered.run_along (I := Books baseReserve.toInt) (s := ⟨_, _⟩) (fun _ => hback) hcall horderly
    hstart hstart hrun
  exact ⟨hbooks.all, hbooks.pledged, hbooks.covered⟩

/-! ### Fixed histories -/

/-- Every text is an address, and records are short. -/
def plainHost : Host where
  thisAddress := "co"
  addressCheck _ := true
  cobuildersSize _ := 100
  proposalSize _ := 100

/-- A call of an account with the coins of a number of shares; the DPoS contract takes every request and pays
nothing. -/
def plainCall (sender : Address) (shares : Int64) (input : Input) : Call where
  txSender := sender
  msgSender := sender
  coinAmount := shares * minUnit
  blockTimestamp := 0
  input := input
  baseReserve := 0
  payable _ := true
  validPeriod := some 0
  answer := some ⟨[], none⟩

def plainInit : Option Cobuild := init plainHost "i" minInitAmount 0 ⟨minUnit, 1⟩

/-- A history without lookups that fall back. -/
def plainRun (calls : List Call) (s : Cobuild) : Option (Ledgered Cobuild) :=
  run plainHost ⟨s, s⟩ (calls.map .call)

/-- The account `a` subscribes ten shares, and all shares are pledged. -/
def pledgedStart : List Call :=
  [plainCall "a" 10 (.subscribe 10), plainCall "i" 0 (.coApply (some .kol) "i" 0 none)]

/-- The account `b` subscribes five more shares and accepts all shares of `a`. -/
def mixedShares : List Call :=
  pledgedStart ++ [plainCall "b" 5 (.subscribe 5), plainCall "a" 0 (.transfer "b" 10), plainCall "b" 10 (.accept "a")]

/-- Pledged shares are added to unpledged ones: ten of twenty pledged shares are pledged, and the coins of fifteen
shares that anyone may take back are those of five. -/
theorem pledged_shares_lost : ∃ s t, plainInit = some s ∧ plainRun mixedShares s = some t ∧
    t.now.states.pledgedShares.toInt = 20 ∧ pledgedShares t.now.cobuilders = 10 ∧
      t.now.balance.toInt < t.now.cfg.unit.toInt * unpledgedShares t.now.cobuilders := by
  have hrun : (plainInit.bind (plainRun mixedShares)).any (fun t =>
      t.now.states.pledgedShares.toInt = 20 ∧ pledgedShares t.now.cobuilders = 10 ∧
        t.now.balance.toInt < t.now.cfg.unit.toInt * unpledgedShares t.now.cobuilders) = true := by decide +kernel
  obtain ⟨t, ht, hall⟩ := (Option.any_eq_true ..).mp hrun
  obtain ⟨s, hs, ht⟩ := bind_eq_some_iff.mp ht
  exact ⟨s, t, hs, ht, of_decide_eq_true hall⟩

/-- The DPoS contract pays a reward, `b` accepts all shares of `a`, and the contract gets its deposit back. -/
def rewardedShares : List Call :=
  pledgedStart ++ [{ plainCall "z" 1 .reward with msgSender := dposContract }, plainCall "a" 0 (.transfer "b" 10),
      plainCall "b" 10 (.accept "a"), { plainCall "z" 20 .refund with msgSender := dposContract },
      plainCall "b" 0 .revoke]

instance : DecidablePred Quiet := fun _ =>
  have : ∀ r : Reply, Decidable (∃ amount, r = .reward amount) := fun r =>
    match r with
    | .reward amount => .isTrue ⟨amount, rfl⟩
    | .fallBack => .isFalse nofun
    | .callBack .. => .isFalse nofun
  Option.decidableForallMem ..

instance (m : Call) (s : Cobuild) : Decidable (Repays m s) := Option.decidableForallMem ..

instance (s : Cobuild) : DecidablePred (Orderly s) := fun m => inferInstanceAs (Decidable (Quiet m ∧ _ ∧ _ ∧ Repays m s))

theorem shares_and_coins_rewardedShares : ∃ s t, plainInit = some s ∧ plainRun rewardedShares s = some t ∧
    Ledgered.Along back (step plainHost) Orderly ⟨s, s⟩ (rewardedShares.map .call) ∧
      t.now.states.allShares.toInt = shares t.now.cobuilders ∧
      t.now.states.pledgedShares.toInt = pledgedShares t.now.cobuilders ∧
      (0 : Int64).toInt + t.now.cfg.unit.toInt * unpledgedShares t.now.cobuilders + awards t.now.cobuilders ≤
        t.now.balance.toInt := by
  have hrun : plainInit.any (fun s => (plainRun rewardedShares s).isSome ∧
      Ledgered.Along back (step plainHost) Orderly ⟨s, s⟩ (rewardedShares.map .call)) = true := by decide +kernel
  obtain ⟨s, hs, hall⟩ := (Option.any_eq_true ..).mp hrun
  obtain ⟨hsome, horderly⟩ := of_decide_eq_true hall
  obtain ⟨t, ht⟩ := Option.isSome_iff_exists.mp hsome
  exact ⟨s, t, hs, ht, horderly, shares_and_coins plainHost "i" minInitAmount 0 _ s hs _ horderly t ht⟩

end Cobuild
end OpenSesame
