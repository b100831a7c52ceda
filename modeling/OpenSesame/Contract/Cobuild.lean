import OpenSesame.Common.General
import OpenSesame.Contract.ScriptUtils
import OpenSesame.Lib.Frames
import OpenSesame.Lib.Records

/-! # `contract/cobuild.js`

Accounts put their coins together for one seat of the DPoS contract. The records are kept as what their JSON texts
stand for; `none` stands for a script that throws, after which nothing of the call is left.

Whoever has a share was `Chain.tx.sender` of some call, which is an account that signs and has no script, so a payment
to it is no more than a payment. The DPoS contract does have a script: while it is asked for rewards it may pay them,
while it is asked to withdraw it may give the deposit back, and both are calls of this contract. Rewards also go to the
pool that `coApply` names, and a pool with a script may call this contract, as the fourth entry of the stack, which is
the last one: from there the DPoS contract cannot be called. -/

namespace OpenSesame
open Protocol ScriptUtils

namespace Cobuild

def oneBU : Int64 := 100000000

def minUnit : Int64 := 100000 * oneBU

def minInitAmount : Int64 := 1000000 * oneBU

def dposContract : Address := "buQqzdS9YSnokDjvzg4YaNatcFQfkgXqk6ss"

inductive Role where
  | validator
  | kol
  deriving DecidableEq

structure Cobuilder where
  share : Int64
  pledged : Bool
  award : Int64
  deriving DecidableEq

/-- The record under `withdraw`. -/
structure Proposal where
  withdrawed : Bool
  expiration : ℤ
  sum : Int64
  ballot : Records Address Int64

/-- The record under `config`. -/
structure Config where
  initiator : Address
  unit : Int64
  raiseShares : ℤ

/-- The record under `states`. -/
structure States where
  disabled : Bool
  applied : Bool
  allShares : Int64
  pledgedShares : Int64
  role : Option Role

/-- The input of a call of the DPoS contract. -/
inductive Request where
  | apply (role : Role) (pool : Address) (ratio : ℤ) (node : Option Address)
  | append (role : Option Role)
  | setNodeAddress (address : Address)
  | setVoteDividend (role : Option Role) (pool : Option Address) (ratio : Option ℤ)
  | extract
  | withdraw (role : Role)
  deriving DecidableEq

/-- The chain around the contract, and the sizes of its JSON texts. -/
structure Host where
  thisAddress : Address
  addressCheck : Address → Bool
  cobuildersSize : Records Address Cobuilder → ℕ
  proposalSize : Proposal → ℕ

inductive Input where
  | subscribe (shares : ℤ)
  | revoke
  | coApply (role : Option Role) (pool : Address) (ratio : ℤ) (node : Option Address)
  | coAppend
  | coSetNodeAddress (address : Address)
  | coSetVoteDividend (pool : Option Address) (ratio : Option ℤ)
  | transfer (dest : Address) (shares : ℤ)
  | accept (transferor : Address)
  | coExtract (list : Option (List Address))
  | coWithdraw
  | poll
  | takeback
  | reward
  | refund
  | other
  deriving DecidableEq

/-- What happens to the contract while the DPoS contract pays rewards. -/
inductive Reply where
  | reward (amount : Int64)
  /-- The pool looks the contract up in a frame that takes the account of the last ledger. -/
  | fallBack
  /-- A call by the pool. -/
  | callBack (msgSender : Address) (coinAmount : Int64) (input : Input)

/-- What the DPoS contract does while it is called: it pays rewards when it is asked for them, and the deposit when it
is asked to withdraw. -/
structure Answer where
  replies : List Reply
  refund : Option Int64

structure Call where
  txSender : Address
  msgSender : Address
  coinAmount : Int64
  blockTimestamp : ℤ
  input : Input
  /-- The base reserve of the chain at that time. -/
  baseReserve : Int64
  /-- The ledger takes a payment to the address. -/
  payable : Address → Bool
  /-- `valid_period` of the configuration of the DPoS contract, if it can be queried. -/
  validPeriod : Option ℤ
  /-- `none` if the DPoS contract fails. -/
  answer : Option Answer

end Cobuild

/-- The contract: its balance, its records, and the calls it has made of the DPoS contract. -/
structure Cobuild where
  balance : Int64
  cfg : Cobuild.Config
  states : Cobuild.States
  cobuilders : Records Address Cobuild.Cobuilder
  /-- The shares under `transfer_`, the one who gives them and the one who may accept them. -/
  transfers : Records (Address × Address) Int64 := ∅
  withdraw : Option Cobuild.Proposal := none
  requests : List (Int64 × Cobuild.Request) := []

namespace Cobuild

section Methods
variable (h : Host) (call : Int64 → Request → Cobuild → Option Cobuild) (m : Call)

def saveCobuilders (cobuilders : Records Address Cobuilder) (s : Cobuild) : Option Cobuild :=
  if h.cobuildersSize cobuilders > General.metadataMaxValueSize then none
  else some { s with cobuilders := cobuilders }

def saveProposal (proposal : Proposal) (s : Cobuild) : Option Cobuild :=
  if h.proposalSize proposal > General.metadataMaxValueSize then none
  else some { s with withdraw := some proposal }

def payCoin (dest : Address) (amount : Int64) (s : Cobuild) : Option Cobuild := do
  guard (dest ≠ h.thisAddress ∧ m.payable dest = true)
  let balance ← spend m.baseReserve s.balance amount
  return { s with balance := balance }

def transferCoin (dest : Address) (amount : Int64) (s : Cobuild) : Option Cobuild :=
  if amount = 0 then some s else payCoin h m dest amount s

def rewarded (unitReward : Int64) (r : Cobuilder) : Option Cobuilder := do
  if r.pledged then
    let each ← int64Mul unitReward r.share
    let award ← int64Add r.award each
    return { r with award := award }
  else return r

def distribute (allReward : Int64) (s : Cobuild) : Option Cobuild := do
  guard (m.msgSender = dposContract)
  let unitReward ← int64Div allReward s.states.pledgedShares
  let cobuilders ← s.cobuilders.traverse fun _ r => rewarded unitReward r
  let left ← int64Mod allReward s.states.pledgedShares
  let initiator ← cobuilders.lookup s.cfg.initiator
  let award ← int64Add initiator.award left
  saveCobuilders h (cobuilders.insert s.cfg.initiator { initiator with award := award }) s

def cobuilder (shares : Int64) (isPledged : Bool) : Cobuilder where
  share := shares
  pledged := isPledged
  award := 0

def subscribed (shares : Int64) : Option Cobuilder → Option Cobuilder
  | none => some (cobuilder shares false)
  | some r => do
    guard (r.pledged = false)
    let share ← int64Add r.share shares
    return { r with share := share }

def subscribe (number : ℤ) (s : Cobuild) : Option Cobuild := do
  guard (0 < number)
  let shares ← ofNumber number
  let price ← int64Mul s.cfg.unit shares
  guard (price = m.coinAmount)
  let entry ← subscribed shares (s.cobuilders.lookup m.txSender)
  let allShares ← int64Add s.states.allShares shares
  let s := { s with states := { s.states with allShares := allShares } }
  saveCobuilders h (s.cobuilders.insert m.txSender entry) s

def revoke (s : Cobuild) : Option Cobuild := do
  guard (m.txSender = s.cfg.initiator → s.states.disabled = true)
  let stake ← s.cobuilders.lookup m.txSender
  guard (stake.pledged = false)
  let s ← saveCobuilders h (s.cobuilders.erase m.txSender) s
  let allShares ← int64Sub s.states.allShares stake.share
  let s := { s with states := { s.states with allShares := allShares } }
  let price ← int64Mul s.cfg.unit stake.share
  let amount ← int64Add price stake.award
  transferCoin h m m.txSender amount s

def applyInput (role : Role) (pool : Address) (ratio : ℤ) (node : Option Address) : Option Request :=
  match role with
  | .kol => some (.apply .kol pool ratio none)
  | .validator => do
    let node ← node
    guard (h.addressCheck node = true ∧ node ≠ h.thisAddress)
    return .apply .validator pool ratio (some node)

def setStatus (s : Cobuild) : Option Cobuild :=
  let states := { s.states with applied := true, pledgedShares := s.states.allShares }
  saveCobuilders h (s.cobuilders.map fun _ r => { r with pledged := true }) { s with states := states }

def coApply (role : Option Role) (pool : Address) (ratio : ℤ) (node : Option Address) (s : Cobuild) :
    Option Cobuild := do
  let role ← role
  guard (h.addressCheck pool = true)
  guard (0 ≤ ratio ∧ ratio ≤ 100)
  guard (s.states.applied = false)
  guard (m.txSender = s.cfg.initiator)
  let raiseShares ← ofNumber s.cfg.raiseShares
  guard (raiseShares ≤ s.states.allShares)
  let s ← setStatus h { s with states := { s.states with role := some role } }
  let pledgeAmount ← int64Mul s.cfg.unit s.states.allShares
  let input ← applyInput h role pool ratio node
  call pledgeAmount input s

def coAppend (s : Cobuild) : Option Cobuild := do
  guard (s.states.applied = true)
  guard (m.txSender = s.cfg.initiator)
  let appendShares ← int64Sub s.states.allShares s.states.pledgedShares
  let appendAmount ← int64Mul s.cfg.unit appendShares
  let s ← setStatus h s
  call appendAmount (.append s.states.role) s

def coSetNodeAddress (address : Address) (s : Cobuild) : Option Cobuild := do
  guard (h.addressCheck address = true)
  guard (m.txSender = s.cfg.initiator)
  call 0 (.setNodeAddress address) s

def coSetVoteDividend (pool : Option Address) (ratio : Option ℤ) (s : Cobuild) : Option Cobuild := do
  guard (m.txSender = s.cfg.initiator)
  guard (∀ address ∈ pool, h.addressCheck address = true)
  guard (∀ n ∈ ratio, 0 ≤ n ∧ n ≤ 100)
  call 0 (.setVoteDividend s.states.role pool ratio) s

/-- What `transfer` stores; a key that is not there cannot be deleted. Those who give shares are senders, so of the key
only the other address may have a NUL. -/
def storeTransfer (key : Address × Address) (shares : Int64) (s : Cobuild) : Option Cobuild :=
  if shares = 0 then
    match s.transfers.lookup key with
    | none => none
    | some _ => some { s with transfers := s.transfers.erase key }
  else some { s with transfers := s.transfers.insert key shares }

def transfer (dest : Address) (number : ℤ) (s : Cobuild) : Option Cobuild := do
  guard (h.addressCheck dest = true)
  guard (0 ≤ number)
  let r ← s.cobuilders.lookup m.txSender
  guard (r.pledged = true)
  let shares ← ofNumber number
  guard (shares ≤ r.share)
  storeTransfer (m.txSender, toCString dest) shares s

/-- The shares of a transferor after some of them have been accepted: the contract, its cobuilders and the awards that
are to be paid out. All shares are taken together with what they have been awarded, after the rewards have been asked
for. -/
def takeShares (transferor : Address) (r : Cobuilder) (shares : Int64) (s : Cobuild) :
    Option (Cobuild × Records Address Cobuilder × Int64) := do
  let rest ← int64Sub r.share shares
  if rest = 0 then
    let s ← call 0 .extract s
    let r ← s.cobuilders.lookup transferor
    return (s, s.cobuilders.erase transferor, r.award)
  else
    guard (∀ own ∈ s.cobuilders.lookup m.txSender, own.pledged = true)
    return (s, s.cobuilders.insert transferor { r with share := rest }, 0)

def accepted (shares : Int64) : Option Cobuilder → Option Cobuilder
  | none => some (cobuilder shares true)
  | some r => do
    let share ← int64Add r.share shares
    return { r with share := share }

def accept (transferor : Address) (s : Cobuild) : Option Cobuild := do
  guard (h.addressCheck transferor = true)
  let r ← s.cobuilders.lookup transferor
  guard (r.pledged = true)
  let shares ← s.transfers.lookup (transferor, m.txSender)
  guard (shares ≤ r.share)
  let price ← int64Mul s.cfg.unit shares
  guard (price = m.coinAmount)
  let (s, cobuilders, gain) ← takeShares call m transferor r shares s
  let entry ← accepted shares (cobuilders.lookup m.txSender)
  let s := { s with transfers := s.transfers.erase (transferor, m.txSender) }
  let s ← saveCobuilders h (cobuilders.insert m.txSender entry) s
  let amount ← int64Add m.coinAmount gain
  transferCoin h m transferor amount s

def withdrawProposal : Option Proposal := do
  let validPeriod ← m.validPeriod
  return { withdrawed := false, expiration := m.blockTimestamp + validPeriod, sum := 0, ballot := ∅ }

def withdrawInput (s : Cobuild) : Request := .withdraw (s.states.role.getD .kol)

def withdrawing (proposal : Proposal) (s : Cobuild) : Option Cobuild := do
  let s ← saveProposal h { proposal with withdrawed := true } s
  call 0 (withdrawInput s) s

def coWithdraw (s : Cobuild) : Option Cobuild := do
  guard (m.txSender = s.cfg.initiator)
  if s.states.applied then
    let proposal ← withdrawProposal m
    withdrawing h call proposal s
  else return { s with states := { s.states with disabled := true } }

def currentProposal (s : Cobuild) : Option Proposal :=
  match s.withdraw with
  | none => withdrawProposal m
  | some proposal => some proposal

def countPoll (share : Int64) (proposal : Proposal) (s : Cobuild) : Option Cobuild := do
  let sum ← int64Add proposal.sum share
  let proposal := { proposal with ballot := proposal.ballot.insert m.txSender share, sum := sum }
  let parts ← int64Div s.states.pledgedShares sum
  if 2 ≤ parts then saveProposal h proposal s else withdrawing h call proposal s

def poll (s : Cobuild) : Option Cobuild := do
  guard (s.states.applied = true)
  let r ← s.cobuilders.lookup m.txSender
  guard (r.pledged = true)
  let proposal ← currentProposal m s
  if (proposal.ballot.lookup m.txSender).isSome then return s
  else countPoll h call m r.share proposal s

def resetStatus (s : Cobuild) : Option Cobuild :=
  let states := { s.states with role := none, disabled := true, applied := false, pledgedShares := 0 }
  saveCobuilders h (s.cobuilders.map fun _ r => { r with pledged := false }) { s with states := states }

def takeback (s : Cobuild) : Option Cobuild := do
  let proposal ← s.withdraw
  guard (proposal.withdrawed = true ∧ m.blockTimestamp ≥ proposal.expiration)
  call 0 (withdrawInput s) s

def received (s : Cobuild) : Option Cobuild := do
  guard (m.msgSender = dposContract)
  let s ← resetStatus h s
  return { s with withdraw := none }

/-- One payment of `coExtract`, with the entries that are yet to be saved. -/
def extractOne (e : Records Address Cobuilder × Cobuild) (address : Address) :
    Option (Records Address Cobuilder × Cobuild) := do
  let r ← e.1.lookup address
  let s ← transferCoin h m address r.award e.2
  return (e.1.insert address { r with award := 0 }, s)

def coExtract (list : Option (List Address)) (s : Cobuild) : Option Cobuild := do
  let s ← call 0 .extract s
  match list with
  | none =>
    let r ← s.cobuilders.lookup m.txSender
    let s ← saveCobuilders h (s.cobuilders.insert m.txSender { r with award := 0 }) s
    transferCoin h m m.txSender r.award s
  | some list =>
    guard (list.length ≤ 100)
    let (cobuilders, s) ← list.foldlM (extractOne h m) (s.cobuilders, s)
    saveCobuilders h cobuilders s

def Input.takesCoins : Input → Bool
  | .subscribe _ => true
  | .accept _ => true
  | .reward => true
  | .refund => true
  | _ => false

def dispatch (s : Cobuild) : Option Cobuild :=
  match m.input with
  | .subscribe shares => subscribe h m shares s
  | .revoke => revoke h m s
  | .coApply role pool ratio node => coApply h call m role pool ratio node s
  | .coAppend => coAppend h call m s
  | .coSetNodeAddress address => coSetNodeAddress h call m address s
  | .coSetVoteDividend pool ratio => coSetVoteDividend h call m pool ratio s
  | .transfer dest shares => transfer h m dest shares s
  | .accept transferor => accept h call m transferor s
  | .coExtract list => coExtract h call m list s
  | .coWithdraw => coWithdraw h call m s
  | .poll => poll h call m s
  | .takeback => takeback call m s
  | .reward => distribute h m m.coinAmount s
  | .refund => received h m s
  | .other => some s

/-- `main`, with the coins of the caller and what a call of the DPoS contract does. -/
def main (s : Cobuild) : Option Cobuild := do
  let balance ← receive s.balance m.coinAmount
  if s.states.disabled = true ∧ m.input ≠ .revoke then some { s with balance := balance }
  else
    guard (m.input.takesCoins = true ∨ m.coinAmount = 0)
    dispatch h call m { s with balance := balance }

/-- A lookup of the contract that takes the account of the last ledger; the calls of the DPoS contract have been made. -/
def back (last now : Cobuild) : Cobuild := { last with requests := now.requests }

/-- A call while the DPoS contract is called, which cannot be called in it. -/
def reply (msgSender : Address) (amount : Int64) (input : Input) (s : Cobuild) : Option Cobuild :=
  main h (fun _ _ _ => none) { m with msgSender := msgSender, coinAmount := amount, input := input } s

variable (last : Cobuild)

def replied (s : Cobuild) : Reply → Option Cobuild
  | .reward amount => reply h m dposContract amount .reward s
  | .fallBack => some (back last s)
  | .callBack msgSender amount input => reply h m msgSender amount input s

/-- What the DPoS contract does in answer to a request. -/
def answered (answer : Answer) (s : Cobuild) : Request → Option Cobuild
  | .extract => answer.replies.foldlM (replied h m last) s
  | .withdraw _ =>
    match answer.refund with
    | none => some s
    | some amount => reply h m dposContract amount .refund s
  | _ => some s

def callDPOS (amount : Int64) (input : Request) (s : Cobuild) : Option Cobuild := do
  let s ← payCoin h m dposContract amount s
  let answer ← m.answer
  answered h m last answer { s with requests := s.requests ++ [(amount, input)] } input

end Methods

def step (h : Host) (last s : Cobuild) (m : Call) : Option Cobuild := main h (callDPOS h m last) m s

def run (h : Host) : Ledgered Cobuild → List (LedgerEvent Call) → Option (Ledgered Cobuild) :=
  Ledgered.run back (step h)

structure Params where
  unit : Int64
  shares : ℤ

/-- `init`, with the coins the contract is created with and `base_reserve` of the configuration of the DPoS contract. -/
def init (h : Host) (txSender : Address) (coinAmount baseReserve : Int64) (params : Params) : Option Cobuild := do
  let odd ← int64Mod params.unit oneBU
  guard (odd = 0 ∧ minUnit ≤ params.unit)
  guard (0 < params.shares)
  let initFund ← int64Sub coinAmount baseReserve
  guard (minInitAmount ≤ initFund)
  let rest ← int64Mod initFund params.unit
  guard (rest = 0)
  let initShare ← int64Div initFund params.unit
  saveCobuilders h ((∅ : Records Address Cobuilder).insert txSender (cobuilder initShare false))
    { balance := coinAmount
      cfg := { initiator := txSender, unit := params.unit, raiseShares := params.shares }
      states :=
        { disabled := false, applied := false, allShares := initShare, pledgedShares := 0, role := none }
      cobuilders := ∅ }

end Cobuild
end OpenSesame
