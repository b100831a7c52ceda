import OpenSesame.Theorems.Ledger.Chain
import OpenSesame.Theorems.Ledger.Coins

/-! # Executing a value before it is decided

A context that went well is filed under the hash of its value alone. -/

namespace OpenSesame
open Protocol Std LedgerContext Option

namespace LedgerContextManager
variable {n : LedgerNode} {w : World} {fuel : ℕ} {m : LedgerContextManager} {value : ConsensusRequest}

/-- What happened up to now, with the hashes and sequences of the contexts that went well and whose ledger is not
closed. -/
inductive History (n : LedgerNode) (fuel : ℕ) : World → LedgerContextManager → List (String × Int64) → Prop
  | start (w : World) : History n fuel w {} []
  | call {w : World} {m m' : LedgerContextManager} {l : List (String × Int64)} {pace : Pace}
      {value : ConsensusRequest} {propose : Bool} {ret : Bool} {result : ProposeTxsResult} :
      History n fuel w m l → syncPreProcess n w fuel pace value propose m = some ((ret, result), m') →
      History n fuel w m' (if ret then (chash n value, value.ledgerSeq) :: l else l)
  | cancelledEnds {w : World} {m : LedgerContextManager} {l : List (String × Int64)} {i : ℕ}
      {value : ConsensusRequest} (result : ProposeTxsResult) (ledger : Option AppliedLedger) :
      History n fuel w m l → m.cancelled[i]? = some value →
      History n fuel w (m.cancelledEnds n i result ledger)
        (if result.execResult then (chash n value, value.ledgerSeq) :: l else l)
  | close {w : World} {m : LedgerContextManager} {l : List (String × Int64)} (w' : World) : History n fuel w m l →
      History n fuel w' (m.reopensesameCompleted w'.seq) (l.filter fun p => !decide (p.2 ≤ w'.seq))

def Filed (l : List (String × Int64)) (m : LedgerContextManager) : Prop :=
  ∀ hash context, m.completedCtxs[hash]? = some context → (hash, context.value.ledgerSeq) ∈ l

variable {l : List (String × Int64)}

theorem Filed.finish (h : Filed l m) (context : FinishedContext) :
    Filed (if context.proposeResult.execResult then (chash n context.value, context.value.ledgerSeq) :: l else l)
      (finish n context m) := by
  unfold LedgerContextManager.finish
  split
  · intro hash c hc
    rcases Table.insertIfNew_eq_some hc with ⟨rfl, rfl⟩ | hc
    · exact List.mem_cons_self
    · exact List.mem_cons_of_mem _ (h hash c hc)
  · exact h

theorem Filed.weaken (h : Filed l m) (ret : Bool) (p : String × Int64) : Filed (if ret then p :: l else l) m := by
  cases ret
  · exact h
  · exact fun hash c hc => List.mem_cons_of_mem _ (h hash c hc)

theorem run_value {clock : Clock} {propose : Bool} {context : FinishedContext}
    (h : run w fuel clock propose value = some context) : context.value = value := by
  unfold run at h
  dsimp only at h
  split at h
  · obtain ⟨r, -, rfl⟩ := map_eq_some_iff.mp h
    rfl
  · obtain ⟨r, -, rfl⟩ := map_eq_some_iff.mp h
    rfl

theorem History.filed (h : History n fuel w m l) : Filed l m := by
  induction h with
  | start w =>
    intro hash context hcontext
    rw [TreeMap.getElem?_emptyc] at hcontext
    cases hcontext
  | @call w m m' l pace value propose ret result _ hcall ih =>
    unfold syncPreProcess at hcall
    split at hcall
    · cases hcall
      exact ih.weaken _ _
    cases pace with
    | notStarted =>
      cases hcall
      exact ih
    | late txCount =>
      cases hcall
      exact ih
    | inTime clock =>
      obtain ⟨context, hrun, heq⟩ := map_eq_some_iff.mp hcall
      cases heq
      have hfiled := ih.finish (n := n) context
      rw [run_value hrun] at hfiled
      exact hfiled
  | @cancelledEnds w m l i value result ledger _ hvalue ih =>
    have hkept : Filed l { m with cancelled := m.cancelled.eraseIdx i } := ih
    unfold LedgerContextManager.cancelledEnds
    rw [hvalue]
    exact hkept.finish { value, proposeResult := result, closingLedger := ledger }
  | close w' _ ih =>
    intro hash context hcontext
    obtain ⟨hcontext, hseq⟩ := Table.filter_eq_some.mp hcontext
    exact List.mem_filter.mpr ⟨ih hash context hcontext, hseq⟩

/-- Where no value with the same hash went well, a call that has the time gives what a new context over the last closed
ledger gives. -/
theorem syncPreProcess_transparent {l : List (String × Int64)} (h : History n fuel w m l)
    (hvalue : ∀ p ∈ l, p.1 ≠ chash n value) (propose : Bool) (clock : Clock) :
    (syncPreProcess n w fuel (.inTime clock) value propose m).map Prod.fst =
      (run w fuel clock propose value).map fun context =>
        (context.proposeResult.execResult, context.proposeResult) := by
  have hnone : m.completedCtxs[chash n value]? = none := by
    rcases hcontext : m.completedCtxs[chash n value]? with - | context
    · rfl
    · exact absurd rfl (hvalue _ (h.filed _ _ hcontext))
  have hcheck : m.checkComplete (chash n value) = -1 := by
    unfold checkComplete
    rw [hnone]
  unfold syncPreProcess
  rw [hcheck, if_neg (by decide), map_map]
  rfl

section Examples
open LedgerManager (plainLedgerNode)

/-- A payment of more than the account has, in a value without a validation. -/
def unpaidValue : ConsensusRequest where
  txset := [{ transaction :=
    { sourceAddress := "g", nonce := 1, feeLimit := 100, gasPrice := 1
      operations := [{ type := .payCoin, payCoin := { destAddress := "d", amount := 5000 } }] } }]
  closeTime := 0
  ledgerSeq := 2

theorem syncPreProcess_transparent_refused :
    ∃ m result, syncPreProcess plainLedgerNode (coinWorld 1000) 20 (.inTime earlyClock) unpaidValue false {} =
        some ((false, result), m) ∧
      ((syncPreProcess plainLedgerNode (coinWorld 1000) 20 (.inTime earlyClock) unpaidValue true m).map Prod.fst).any
        (fun r => r.1 && r.2.consValidation.errorTxIds == [0]) = true ∧
      (syncPreProcess plainLedgerNode (coinWorld 1000) 20 (.inTime earlyClock) unpaidValue true m).map Prod.fst =
        (run (coinWorld 1000) 20 earlyClock true unpaidValue).map fun context =>
          (context.proposeResult.execResult, context.proposeResult) := by
  have hrun : (syncPreProcess plainLedgerNode (coinWorld 1000) 20 (.inTime earlyClock) unpaidValue false {}).any
      (fun r => !r.1.1 && ((syncPreProcess plainLedgerNode (coinWorld 1000) 20 (.inTime earlyClock) unpaidValue true
        r.2).map Prod.fst).any fun r => r.1 && r.2.consValidation.errorTxIds == [0]) = true := by
    decide +kernel
  obtain ⟨⟨⟨ret, result⟩, m⟩, h, hfound⟩ := (any_eq_true _ _).mp hrun
  obtain ⟨hret, hthen⟩ := Bool.and_eq_true_iff.mp hfound
  obtain rfl : ret = false := by simpa using hret
  refine ⟨m, result, h, hthen, ?_⟩
  exact syncPreProcess_transparent ((History.start (coinWorld 1000)).call h) (by simp) true earlyClock

/-- The value is proposed, and its failed transaction noted; then it passes a check that a new context refuses. -/
theorem syncPreProcess_shared : ∃ m l, History plainLedgerNode 20 (coinWorld 1000) m l ∧
      syncPreProcess plainLedgerNode (coinWorld 1000) 20 (.inTime earlyClock) unpaidValue false m =
        some ((true, {}), m) ∧
      (run (coinWorld 1000) 20 earlyClock false unpaidValue).map
        (fun context => context.proposeResult.execResult) = some false := by
  have hrun : (syncPreProcess plainLedgerNode (coinWorld 1000) 20 (.inTime earlyClock) unpaidValue true {}).any
      (fun r => r.2.checkComplete (chash plainLedgerNode unpaidValue) == 1) = true := by
    decide +kernel
  obtain ⟨⟨⟨ret, result⟩, m⟩, h, hfound⟩ := (any_eq_true _ _).mp hrun
  have hcheck : m.checkComplete (chash plainLedgerNode unpaidValue) = 1 := beq_iff_eq.mp hfound
  refine ⟨m, _, (History.start (coinWorld 1000)).call h, ?_, by decide +kernel⟩
  unfold syncPreProcess
  rw [hcheck]
  rfl

end Examples

end LedgerContextManager
end OpenSesame
