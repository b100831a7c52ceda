import OpenSesame.Glue.GlueManager

/-! # Proposals that are tried again

After a time-out the leader tries again with seven tenths of the transactions, rounded. -/

namespace OpenSesame
open Protocol

namespace GlueManager
variable {preProcess : ℕ → List TransactionEnv → ProposeTxsResult} {txs : List TransactionEnv}

/-- The batches of the attempts, each after a time-out of the one before. -/
def attempt (preProcess : ℕ → List TransactionEnv → ProposeTxsResult) (txs : List TransactionEnv) :
    ℕ → List TransactionEnv
  | 0 => txs
  | i + 1 => reducedTxs (preProcess i (attempt preProcess txs i)) (attempt preProcess txs i)

theorem nextTxSize_lt (result : ProposeTxsResult) {size : ℕ} (h : 2 ≤ size) : nextTxSize result size < size := by
  unfold nextTxSize
  dsimp only
  -- the product is rounded towards zero
  have hround : ∀ total : ℤ, total ≤ size → (7 * total + 5).tdiv 10 < size := by
    intro total htotal
    have hle : (7 * total + 5).tdiv 10 * 10 ≤ max (7 * total + 5) 0 := by
      rcases Int.le_total 0 (7 * total + 5) with hpos | hneg
      · rw [Int.tdiv_eq_ediv_of_nonneg hpos]
        omega
      · have hopposite := Int.neg_tdiv (7 * total + 5) 10
        rw [Int.tdiv_eq_ediv_of_nonneg (by omega)] at hopposite
        omega
    omega
  split
  · exact hround _ le_rfl
  · exact hround _ (min_le_right ..)

theorem nextTxSize_one {result : ProposeTxsResult} (h : 0 ≤ result.txExecuteCount.toInt) : nextTxSize result 1 = 1 := by
  unfold nextTxSize
  dsimp only
  split
  · rfl
  · rename_i hne
    have hpos : result.txExecuteCount.toInt ≠ 0 := fun e => hne (Int64.toInt_inj.mp e)
    rw [min_eq_right (by omega)]
    rfl

theorem nextTxSize_negative {result : ProposeTxsResult} (h : result.txExecuteCount.toInt < 0) (size : ℕ) :
    nextTxSize result size ≤ 0 := by
  unfold nextTxSize
  dsimp only
  rw [if_neg (by rintro e; rw [e] at h; cases h), min_eq_left (by omega)]
  have hopposite := Int.neg_tdiv (7 * result.txExecuteCount.toInt + 5) 10
  rw [Int.tdiv_eq_ediv_of_nonneg (by omega)] at hopposite
  omega

theorem length_reducedTxs_lt_iff (result : ProposeTxsResult) (txs : List TransactionEnv) :
    (reducedTxs result txs).length < txs.length ↔
      2 ≤ txs.length ∨ txs.length = 1 ∧ result.txExecuteCount.toInt < 0 := by
  rw [reducedTxs, List.length_take]
  rcases Nat.lt_or_ge 1 txs.length with htwo | hsmall
  · have hlt := nextTxSize_lt result htwo
    omega
  rcases Nat.lt_or_ge 0 txs.length with hone | hzero
  · obtain hlength : txs.length = 1 := by omega
    rw [hlength]
    rcases lt_or_ge result.txExecuteCount.toInt 0 with hneg | hpos
    · have hle := nextTxSize_negative hneg 1
      omega
    · rw [nextTxSize_one hpos]
      omega
  · omega

/-- The attempt `i` is made and times out. -/
def TimesOut (preProcess : ℕ → List TransactionEnv → ProposeTxsResult) (txs : List TransactionEnv) (i : ℕ) : Prop :=
  ∀ j ≤ i, (preProcess j (attempt preProcess txs j)).blockTimeout = true

theorem proposeLoop_ends (h : ∀ i, TimesOut preProcess txs i →
      (attempt preProcess txs (i + 1)).length < (attempt preProcess txs i).length) :
    ∀ {fuel : ℕ} (i : ℕ), (∀ j < i, TimesOut preProcess txs j) → (attempt preProcess txs i).length < fuel →
      ∃ r, proposeLoop preProcess fuel i (attempt preProcess txs i) = some r
  | 0, _, _, hless => absurd hless (Nat.not_lt_zero _)
  | fuel + 1, i, hbefore, hless => by
    rcases htimeout : (preProcess i (attempt preProcess txs i)).blockTimeout with - | -
    · exact ⟨_, by rw [proposeLoop, htimeout]; rfl⟩
    · have hout : TimesOut preProcess txs i := by
        intro j hj
        rcases Nat.lt_or_eq_of_le hj with hj | rfl
        · exact hbefore j hj j le_rfl
        · exact htimeout
      have hfewer := h i hout
      have hend : (attempt preProcess txs (i + 1)).length < fuel := by omega
      obtain ⟨r, hr⟩ := proposeLoop_ends h (i + 1) (fun j hj => fun k hk => hout k (by omega)) hend
      exact ⟨r, by rw [proposeLoop, htimeout]; exact hr⟩

/-- Whatever the answers of `SyncPreProcess` are: every attempt after a time-out has fewer transactions than the one
before and the loop ends, just when no attempt times out that has no transaction, or one and no negative count. -/
theorem retries_progress (preProcess : ℕ → List TransactionEnv → ProposeTxsResult) (txs : List TransactionEnv) :
    ((∀ i, TimesOut preProcess txs i →
        (attempt preProcess txs (i + 1)).length < (attempt preProcess txs i).length) ∧
      ∃ r, proposeLoop preProcess (txs.length + 1) 0 txs = some r) ↔
    ∀ i, TimesOut preProcess txs i →
      2 ≤ (attempt preProcess txs i).length ∨ (attempt preProcess txs i).length = 1 ∧
        (preProcess i (attempt preProcess txs i)).txExecuteCount.toInt < 0 := by
  constructor
  · rintro ⟨hfewer, -⟩ i hout
    exact (length_reducedTxs_lt_iff _ _).mp (hfewer i hout)
  · intro hlarge
    have hfewer : ∀ i, TimesOut preProcess txs i →
        (attempt preProcess txs (i + 1)).length < (attempt preProcess txs i).length :=
      fun i hout => (length_reducedTxs_lt_iff _ _).mpr (hlarge i hout)
    exact ⟨hfewer, proposeLoop_ends hfewer 0 (fun _ hj => absurd hj (Nat.not_lt_zero _)) (Nat.lt_succ_self _)⟩

def plainTx : TransactionEnv where
  transaction := { sourceAddress := "a", nonce := 1, gasPrice := 1 }

def slowAbove (size : ℕ) (_ : ℕ) (txs : List TransactionEnv) : ProposeTxsResult :=
  { blockTimeout := decide (size < txs.length) }

/-- A single transaction that always times out is tried again and again, though the empty batch does not time out. -/
theorem retries_forever : (∀ i, (slowAbove 0 i []).blockTimeout = false) ∧
    (attempt (slowAbove 0) [plainTx] 1).length = (attempt (slowAbove 0) [plainTx] 0).length ∧
    ∀ fuel, proposeLoop (slowAbove 0) fuel 0 [plainTx] = none := by
  refine ⟨fun _ => rfl, rfl, fun fuel => ?_⟩
  suffices h : ∀ i, proposeLoop (slowAbove 0) fuel i [plainTx] = none from h 0
  induction fuel with
  | zero => exact fun _ => rfl
  | succ fuel ih => exact fun i => ih (i + 1)

end GlueManager
end OpenSesame
