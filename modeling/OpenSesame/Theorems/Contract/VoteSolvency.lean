
import OpenSesame.Contract.ValidatorsVote

/-! # What `validators_vote.js` owes and what it has

A call keeps the balance of the contract above the pledges as long as nobody who is paid changes an
applicant or the list of candidates meanwhile, or has the contract looked up as it was in the last ledger. -/

namespace OpenSesame
open Protocol ScriptUtils Records List Option

namespace ValidatorsVote

/-! ### Sums over lists of candidates -/

def amounts (l : List Candidate) : ℤ := (l.map fun c => c.2.toInt).sum

theorem amounts_perm {l l' : List Candidate} (h : l.Perm l') : amounts l = amounts l' := (h.map _).sum_eq

theorem amounts_cons (c : Candidate) (l : List Candidate) : amounts (c :: l) = c.2.toInt + amounts l := by
  simp [amounts]

theorem amounts_insertIdx {l : List Candidate} {i : ℕ} (hi : i ≤ l.length) (c : Candidate) :
    amounts (l.insertIdx i c) = c.2.toInt + amounts l := by
  rw [amounts_perm (perm_insertIdx c l hi), amounts_cons]

variable {x : Int64}

theorem amounts_insert {a : Address} {l l' : List Candidate}
    (h : insertCandidatesSorted a x l = some l') : amounts l' = x.toInt + amounts l := by
  unfold insertCandidatesSorted at h
  split at h
  · cases h
  dsimp only at h
  split at h
  · cases h
    simp [amounts, add_comm]
  rename_i c hc
  obtain ⟨hi, -⟩ := List.getElem?_eq_some_iff.mp hc
  split at h
  · cases h
    refine amounts_insertIdx ?_ _
    have htie : (l.drop (l.findIdx fun c => decide (x ≥ c.2))).findIdx (fun c => decide (a ≤ c.1 ∨ x > c.2)) ≤
        (l.drop (l.findIdx fun c => decide (x ≥ c.2))).length := List.findIdx_le_length
    rw [List.length_drop] at htie
    omega
  · cases h
    exact amounts_insertIdx hi.le _

def surplus (s : ValidatorsVote) : ℤ := s.balance.toInt - pledges s

def Grows (s t : ValidatorsVote) : Prop := surplus s ≤ surplus t

/-- The applicants and the candidates are the same. -/
def SameRecords (s t : ValidatorsVote) : Prop := t.applicants = s.applicants ∧ t.candidates = s.candidates

theorem Grows.refl (s : ValidatorsVote) : Grows s s := le_refl (surplus s)

theorem Grows.trans {s t u : ValidatorsVote} (h : Grows s t) (h' : Grows t u) : Grows s u :=
  le_trans (b := surplus t) h h'

/-- What a call that succeeds has done. -/
inductive Turn (h : Host) (pay : Payee Call → ValidatorsVote → Option ValidatorsVote) (m : Call) (payee : Payee Call)
    (s : ValidatorsVote) : ValidatorsVote → Prop
  | abolish (proposals : Records Address AbolishProposal) : Turn h pay m payee s
    { s with abolishProposals := proposals }
  | superadd {position : ℕ} {c : Candidate} {amount : Int64} (hmin : ¬ m.thisPayCoinAmount < minSuperadditionAmount)
      (hposition : findI0 s.candidates m.sender = some position) (hc : s.candidates[position]? = some c)
      (hamount : int64Add c.2 m.thisPayCoinAmount = some amount)
      (hl : insertCandidatesSorted m.sender amount (s.candidates.eraseIdx position) = some l)
      (hi : findI0 l m.sender = some i) : Turn h pay m payee s (storeCandidates l i s)
  | pledge (hnone : findI0 s.candidates m.sender = none) (hdata : pledged m s = some data) :
      Turn h pay m payee s (putApplicant m.sender data s)
  | vote (hdata : s.applicants.lookup (toCString a) = some data) (ballot : List Address) :
      Turn h pay m payee s (putApplicant a { data with ballot := ballot } s)
  | elect (hinput : m.input = .voteForApplicant a) (hdata : s.applicants.lookup (toCString a) = some data)
      (hl : insertCandidatesSorted a data.pledgeCoinAmount s.candidates = some l) (hi : findI0 l a = some i) :
      Turn h pay m payee s (storeCandidates l i { s with applicants := s.applicants.erase (toCString a) })
  | payBack (hdata : s.applicants.lookup (toCString a) = some data)
      (hu : transferCoin h pay m payee a data.pledgeCoinAmount s = some u) :
      Turn h pay m payee s { u with applicants := u.applicants.erase (toCString a) }
  | leave {position : ℕ} {c : Candidate} (hc : s.candidates[position]? = some c)
      (hu : transferCoin h pay m payee m.sender c.2 s = some u) :
      Turn h pay m payee s (storeCandidates (s.candidates.eraseIdx position) position u)
  | punish {position left : ℕ} {c : Candidate} {forfeit leftCoin : Int64} (hc : s.candidates[position]? = some c)
      (hleft : int64Sub c.2 forfeit = some leftCoin) (hu : transferCoin h pay m payee a leftCoin s = some u)
      (hl : spreadForfeit forfeit left (s.candidates.eraseIdx position) = some l)
      (proposals : Records Address AbolishProposal) :
      Turn h pay m payee s (setValidatorsFromCandidate l { u with abolishProposals := proposals, candidates := l })

section Call
variable {h : Host} {pay : Payee Call → ValidatorsVote → Option ValidatorsVote} {m : Call} {payee : Payee Call}
  {s t u : ValidatorsVote} {a : Address} {c : Candidate} {data : Applicant} {l : List Candidate} {i position : ℕ}

theorem Turn.none : Turn h pay m payee s s := .abolish s.abolishProposals

end Call

/-- A payee whose calls, and those of the payees in them, leave the applicants and the candidates as they are, and who
looks nothing up that it does not see. -/
def Quiet (h : Host) (p : Payee Call) : Prop :=
  ∀ last, (script h last).Tame General.contractMaxRecursiveDepth SameRecords p

/-- A call under so many contracts, with those who are paid. -/
def called (contracts : ℕ) (call : Call) (payees : List (Payee Call)) : LedgerEvent Tx :=
  .call { stack := contracts + 1, call, payees, pos := Nat.succ_pos contracts }

end ValidatorsVote
end OpenSesame
