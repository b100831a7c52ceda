import Mathlib.Data.List.Sort
import Mathlib.Data.String.Basic
import OpenSesame.Common.General
import OpenSesame.Contract.ScriptUtils
import OpenSesame.Lib.Frames
import OpenSesame.Lib.Records
import OpenSesame.Lib.Reentry

/-! # `contract/validators_vote.js`

The records of the contract are kept as what their JSON texts stand for, each under what the host reads of the address
in its key; `none` stands for a script that throws, after which nothing of the call is left. A function that pays is
given who is paid: the script of the payee runs inside the payment, while lists that were loaded before stay as they
were loaded. -/

namespace OpenSesame
open Protocol ScriptUtils

namespace ValidatorsVote

def validatorSetSize : ℕ := 100

/-- In microseconds. -/
def effectiveVoteInterval : ℤ := 15 * 24 * 60 * 60 * 1000 * 1000

def minPledgeAmount : Int64 := 50000 * 100000000

def minSuperadditionAmount : Int64 := 100 * 100000000

/-- The record under `applicant_` and an address. -/
structure Applicant where
  pledgeCoinAmount : Int64
  ballot : List Address
  votingExpiredTime : ℤ
  deriving DecidableEq

/-- The record under `abolish_` and an address. -/
structure AbolishProposal where
  reason : String
  proposer : Address
  votingExpiredTime : ℤ
  ballot : List Address
  deriving DecidableEq

abbrev Candidate := Address × Int64

/-- What is stored as JSON; an abolish proposal names the validator. -/
inductive Stored where
  | applicant (record : Applicant)
  | abolish (malicious : Address) (record : AbolishProposal)
  | candidates (list : List Candidate)

structure Host where
  thisAddress : Address
  addressCheck : Address → Bool
  /-- The number of bytes of `JSON.stringify`. -/
  jsonSize : Stored → ℕ
  /-- `parseInt(n * passRate + 0.5)`, with the numbers of the engine: the votes that pass among `n` validators. -/
  passCount : ℕ → ℕ

inductive Input where
  | pledgeCoin
  | voteForApplicant (address : Address)
  | takebackCoin
  /-- The proof may be anything, or a text. -/
  | abolishValidator (address : Address) (proof : Option String)
  | quitAbolish (address : Address)
  | voteForAbolish (address : Address)
  /-- `<undidentified operation type>` -/
  | unidentified

structure Call where
  sender : Address
  thisPayCoinAmount : Int64
  blockTimestamp : ℤ
  /-- The base reserve of the chain at that time. -/
  baseReserve : Int64
  input : Input

end ValidatorsVote

/-- The contract: its balance, its records and the validators of the chain, which only it sets. -/
structure ValidatorsVote where
  balance : Int64
  applicants : Records Address ValidatorsVote.Applicant
  abolishProposals : Records Address ValidatorsVote.AbolishProposal
  candidates : List ValidatorsVote.Candidate
  /-- The last argument of `setValidators`, or the validators the chain started with. -/
  validators : List ValidatorsVote.Candidate

namespace ValidatorsVote

def findI0 (arr : List Candidate) (key : Address) : Option ℕ := arr.findIdx? fun c => c.1 == key

/-- `insertCandidatesSorted`; `none` is its `false`. -/
def insertCandidatesSorted (applicant : Address) (amount : Int64) (candidates : List Candidate) :
    Option (List Candidate) :=
  if candidates.length ≥ validatorSetSize * 2 then none
  else
    let i := candidates.findIdx fun c => decide (amount ≥ c.2)
    match candidates[i]? with
    | none => some (candidates ++ [(applicant, amount)])
    | some c =>
      if amount = c.2 then
        let tie := (candidates.drop i).findIdx fun c => decide (applicant ≤ c.1 ∨ amount > c.2)
        some (candidates.insertIdx (i + tie) (applicant, amount))
      else some (candidates.insertIdx i (applicant, amount))

/-- `candidates[i][1] = int64Add(candidates[i][1], amount)`. -/
def addAt (candidates : List Candidate) (i : ℕ) (amount : Int64) : Option (List Candidate) := do
  let c ← candidates[i]?
  let sum ← int64Add c.2 amount
  return candidates.set i (c.1, sum)

/-- `by(1, byString(0))`: more coins first, then by address. -/
def before (a b : Candidate) : Prop := b.2 < a.2 ∨ a.2 = b.2 ∧ a.1 ≤ b.1

instance : DecidableRel before := fun _ _ => inferInstanceAs (Decidable (_ ∨ _))

def setValidatorsFromCandidate (candidates : List Candidate) (s : ValidatorsVote) : ValidatorsVote :=
  { s with validators := candidates.take validatorSetSize }

/-- The limit of `CheckValid` for a value. -/
def checkSize (h : Host) (r : Stored) : Option Unit := guard (h.jsonSize r ≤ General.metadataMaxValueSize)

/-- The list is stored, and the validators are set if the entry at `position` is or was one of them. -/
def storeCandidates (candidates : List Candidate) (position : ℕ) (s : ValidatorsVote) : ValidatorsVote :=
  let s := { s with candidates := candidates }
  if position < validatorSetSize then setValidatorsFromCandidate candidates s else s

def putApplicant (a : Address) (r : Applicant) (s : ValidatorsVote) : ValidatorsVote :=
  { s with applicants := s.applicants.insert (toCString a) r }

/-- A key that is not there cannot be deleted. -/
def delApplicant (a : Address) (s : ValidatorsVote) : Option ValidatorsVote :=
  match s.applicants.lookup (toCString a) with
  | none => none
  | some _ => some { s with applicants := s.applicants.erase (toCString a) }

def putAbolish (a : Address) (r : AbolishProposal) (s : ValidatorsVote) : ValidatorsVote :=
  { s with abolishProposals := s.abolishProposals.insert (toCString a) r }

def delAbolish (a : Address) (s : ValidatorsVote) : Option ValidatorsVote :=
  match s.abolishProposals.lookup (toCString a) with
  | none => none
  | some _ => some { s with abolishProposals := s.abolishProposals.erase (toCString a) }

variable (h : Host) (pay : Payee Call → ValidatorsVote → Option ValidatorsVote) (m : Call) (payee : Payee Call)

/-- `payCoin`: the coins move, and then the payee has its turn. -/
def payCoin (dest : Address) (amount : Int64) (s : ValidatorsVote) : Option ValidatorsVote :=
  if toCString dest = h.thisAddress then none
  else
    match spend m.baseReserve s.balance amount with
    | none => none
    | some balance => pay payee { s with balance := balance }

def transferCoin (dest : Address) (amount : Int64) (s : ValidatorsVote) : Option ValidatorsVote :=
  if amount = 0 then some s else payCoin h pay m payee dest amount s

/-! ### The methods -/

/-- `applyAsValidatorCandidate` of a candidate. -/
def superaddCandidate (position : ℕ) (s : ValidatorsVote) : Option ValidatorsVote := do
  if m.thisPayCoinAmount < minSuperadditionAmount then none
  else
    let c ← s.candidates[position]?
    let amount ← int64Add c.2 m.thisPayCoinAmount
    let newCandidates ← insertCandidatesSorted m.sender amount (s.candidates.eraseIdx position)
    checkSize h (.candidates newCandidates)
    let newPosition ← findI0 newCandidates m.sender
    return storeCandidates newCandidates newPosition s

/-- The record of an applicant after a payment. -/
def pledged (s : ValidatorsVote) : Option Applicant :=
  let votingExpiredTime := m.blockTimestamp + effectiveVoteInterval
  match s.applicants.lookup (toCString m.sender) with
  | some applicant =>
    if m.thisPayCoinAmount < minSuperadditionAmount then none
    else
      match int64Add applicant.pledgeCoinAmount m.thisPayCoinAmount with
      | none => none
      | some amount => some { applicant with pledgeCoinAmount := amount, votingExpiredTime := votingExpiredTime }
  | none =>
    if m.thisPayCoinAmount < minPledgeAmount then none
    else some { pledgeCoinAmount := m.thisPayCoinAmount, ballot := [], votingExpiredTime := votingExpiredTime }

def applyAsValidatorCandidate (s : ValidatorsVote) : Option ValidatorsVote :=
  match findI0 s.candidates m.sender with
  | some position => superaddCandidate h m position s
  | none => do
    let applicant ← pledged m s
    checkSize h (.applicant applicant)
    return putApplicant m.sender applicant s

/-- `voteForApplicant` once the record was loaded and has not expired. -/
def countVote (applicant : Address) (applicantData : Applicant) (s : ValidatorsVote) : Option ValidatorsVote := do
  if s.candidates.length ≥ validatorSetSize * 2 then return s
  if m.sender ∈ applicantData.ballot then none
  else
    let ballot := applicantData.ballot ++ [m.sender]
    if ballot.length < h.passCount s.validators.length then
      checkSize h (.applicant { applicantData with ballot := ballot })
      return putApplicant applicant { applicantData with ballot := ballot } s
    else
      let newCandidates ← insertCandidatesSorted applicant applicantData.pledgeCoinAmount s.candidates
      checkSize h (.candidates newCandidates)
      let position ← findI0 newCandidates applicant
      let s ← delApplicant applicant s
      return storeCandidates newCandidates position s

/-- `voteForApplicant`: an application that has expired is paid back, and then its record is deleted. -/
def voteForApplicant (applicant : Address) (s : ValidatorsVote) : Option ValidatorsVote :=
  if h.addressCheck (toCString applicant) = false ∨ findI0 s.validators m.sender = none then none
  else
    match s.applicants.lookup (toCString applicant) with
    | none => some s
    | some applicantData =>
      if m.blockTimestamp > applicantData.votingExpiredTime then
        match transferCoin h pay m payee applicant applicantData.pledgeCoinAmount s with
        | none => none
        | some s => delApplicant applicant s
      else countVote h m applicant applicantData s

/-- `takebackAllPledgeCoin`: the coins are paid before the record is deleted or the list is stored. -/
def takebackAllPledgeCoin (s : ValidatorsVote) : Option ValidatorsVote :=
  match s.applicants.lookup (toCString m.sender) with
  | some applicantData =>
    match transferCoin h pay m payee m.sender applicantData.pledgeCoinAmount s with
    | none => none
    | some s => delApplicant m.sender s
  | none =>
    let candidates := s.candidates
    match findI0 candidates m.sender with
    | none => some s
    | some position => do
      if candidates.length ≤ 1 then none
      else
        let c ← candidates[position]?
        let s ← transferCoin h pay m payee m.sender c.2 s
        checkSize h (.candidates (candidates.eraseIdx position))
        return storeCandidates (candidates.eraseIdx position) position s

def abolishValidator (malicious : Address) (proof : Option String) (s : ValidatorsVote) : Option ValidatorsVote := do
  guard (h.addressCheck (toCString malicious) = true)
  let proof ← proof
  if findI0 s.validators m.sender = none ∨ findI0 s.validators malicious = none then none
  else
    match s.abolishProposals.lookup (toCString malicious) with
    | some abolishProposal =>
      if m.blockTimestamp ≥ abolishProposal.votingExpiredTime then
        let abolishProposal := { abolishProposal with votingExpiredTime := m.blockTimestamp }
        checkSize h (.abolish malicious abolishProposal)
        return putAbolish malicious abolishProposal s
      else return s
    | none =>
      let newProposal : AbolishProposal :=
        { reason := proof, proposer := m.sender, votingExpiredTime := m.blockTimestamp + effectiveVoteInterval
          ballot := [m.sender] }
      checkSize h (.abolish malicious newProposal)
      return putAbolish malicious newProposal s

def quitAbolishValidator (malicious : Address) (s : ValidatorsVote) : Option ValidatorsVote :=
  if h.addressCheck (toCString malicious) = false then none
  else
    match s.abolishProposals.lookup (toCString malicious) with
    | none => none
    | some abolishProposal => if m.sender = abolishProposal.proposer then delAbolish malicious s else none

/-- The rest of the division goes to the first candidate. -/
def payAward (award : Int64) (candidates : List Candidate) : Option (List Candidate) :=
  if award = 0 then some candidates else addAt candidates 0 award

/-- The forfeited coins go to the validators that are left, in equal parts. -/
def spreadForfeit (forfeit : Int64) (left : ℕ) (candidates : List Candidate) : Option (List Candidate) := do
  let count ← ofNumber left
  let award ← int64Mod forfeit count
  let average ← int64Div forfeit count
  let candidates ← payAward award candidates
  (List.range left).foldlM (fun candidates i => addAt candidates i average) candidates

/-- `voteAbolishValidator` once the vote has passed: the list is loaded before the payment. -/
def punish (malicious : Address) (s : ValidatorsVote) : Option ValidatorsVote := do
  let left := s.validators.length - 1
  let candidates := s.candidates
  let position ← findI0 candidates malicious
  let c ← candidates[position]?
  let forfeit ← int64Div c.2 10
  let leftCoin ← int64Sub c.2 forfeit
  let s ← transferCoin h pay m payee malicious leftCoin s
  let s ← delAbolish malicious s
  let candidates ← spreadForfeit forfeit left (candidates.eraseIdx position)
  checkSize h (.candidates candidates)
  return setValidatorsFromCandidate candidates { s with candidates := candidates }

def voteAbolishValidator (malicious : Address) (s : ValidatorsVote) : Option ValidatorsVote :=
  if h.addressCheck (toCString malicious) = false ∨ s.validators.length ≤ 1 ∨ findI0 s.validators m.sender = none ∨
      findI0 s.validators malicious = none then
    none
  else
    match s.abolishProposals.lookup (toCString malicious) with
    | none => some s
    | some abolishProposal =>
      if m.blockTimestamp > abolishProposal.votingExpiredTime then delAbolish malicious s
      else if m.sender ∈ abolishProposal.ballot then none
      else
        let ballot := abolishProposal.ballot ++ [m.sender]
        if ballot.length < h.passCount s.validators.length then do
          checkSize h (.abolish malicious { abolishProposal with ballot := ballot })
          return putAbolish malicious { abolishProposal with ballot := ballot } s
        else punish h pay m payee malicious s

def dispatch (s : ValidatorsVote) : Option ValidatorsVote :=
  match m.input with
  | .pledgeCoin => applyAsValidatorCandidate h m s
  | .voteForApplicant address => voteForApplicant h pay m payee address s
  | .takebackCoin => takebackAllPledgeCoin h pay m payee s
  | .abolishValidator address proof => abolishValidator h m address proof s
  | .quitAbolish address => quitAbolishValidator h m address s
  | .voteForAbolish address => voteAbolishValidator h pay m payee address s
  | .unidentified => none

/-- `main` with the coins of the caller, who are paid being listed; a call pays once at most. -/
def main (pay : Payee Call → ValidatorsVote → Option ValidatorsVote) (m : Call) (payees : List (Payee Call))
    (s : ValidatorsVote) : Option ValidatorsVote :=
  match receive s.balance m.thisPayCoinAmount with
  | none => none
  | some balance => dispatch h pay m (payees.headD .account) { s with balance := balance }

/-- What a lookup that falls back finds; the validators of the chain are no record of the contract. -/
def back (last now : ValidatorsVote) : ValidatorsVote := { last with validators := now.validators }

/-- The contract as a script that is called directly. -/
def script (last : ValidatorsVote) : Script Call ValidatorsVote where
  frames := 0
  back := back last
  main := main h

/-- `init`, with the validators of the chain and the balance the contract was created with. -/
def init (balance : Int64) (validators : List Candidate) : ValidatorsVote where
  balance := balance
  applicants := ∅
  abolishProposals := ∅
  candidates := validators.insertionSort before
  validators := validators.insertionSort before

/-- A call of the contract by a transaction, or by a contract that runs in one: the entries on the stack with it,
and those who are paid in turn. -/
structure Tx where
  stack : ℕ
  call : Call
  payees : List (Payee Call)
  pos : 0 < stack

def call (last now : ValidatorsVote) (tx : Tx) : Option ValidatorsVote :=
  (script h last).call General.contractMaxRecursiveDepth tx.stack tx.call tx.payees now

/-- A history of the contract: calls that succeed, lookups that fall back and ledgers that are closed. -/
def run : Ledgered ValidatorsVote → List (LedgerEvent Tx) → Option (Ledgered ValidatorsVote) :=
  Ledgered.run back (call h)

/-- The pledges of all applicants and all candidates. -/
def pledges (s : ValidatorsVote) : ℤ :=
  s.applicants.sum (fun _ a => a.pledgeCoinAmount.toInt) + (s.candidates.map fun c => c.2.toInt).sum

end ValidatorsVote
end OpenSesame
