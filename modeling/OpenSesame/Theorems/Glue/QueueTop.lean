import OpenSesame.Lib.Wire
import OpenSesame.Theorems.Glue.QueueOrder

/-! # What `TopTransaction` selects

One pass over the queue, with a cursor for each account. -/

namespace OpenSesame
open Protocol Std List

namespace TransactionQueue
variable {n : QueueNode} {q : TransactionQueue} {limit : ℕ} {a : Address}

/-! ### One pass of the loop -/

theorem lastSeq_fst (a : Address) (st : Top) : (lastSeq a st).1 = st.topicSeqs[a]?.getD (st.accountNonce.getD a 0) := by
  unfold lastSeq
  rcases h : st.topicSeqs[a]? with - | seq
  · rfl
  · rfl

theorem lastSeq_snd (a : Address) (st : Top) :
    (lastSeq a st).2.set = st.set ∧ (lastSeq a st).2.topicSeqs = st.topicSeqs := by
  unfold lastSeq
  split
  · exact ⟨rfl, rfl⟩
  · exact ⟨rfl, rfl⟩

/-- The check of the size lets a transaction through: by the estimate or by the encoding of what is selected. -/
def Fits (n : QueueNode) (tx : QueuedTx) (st : Top) : Prop :=
  st.set.length + st.setSize + n.byteSize tx.env < txsetLimitSize ∨
    n.setByteSize st.set + n.byteSize tx.env < txsetLimitSize

/-- What the loop does with a transaction that it lets through. -/
def visit (n : QueueNode) (st : Top) (x : NodeId × QueuedTx) : Top :=
  let st := { st with setSize := st.setSize + n.byteSize x.2.env }
  let a := x.2.getSourceAddress
  if st.breakNonceAccounts.contains a then st
  else
    let (seq, st) := lastSeq a st
    if x.2.getNonce > seq + 1 then { st with breakNonceAccounts := st.breakNonceAccounts.insert a (seq + 1) }
    else { st with topicSeqs := st.topicSeqs.insert a x.2.getNonce, set := st.set ++ [x.2.env] }

inductive Pass (tx : QueuedTx) (st st' : Top) : Prop where
  | skip (hset : st'.set = st.set) (hseqs : st'.topicSeqs = st.topicSeqs)
      (hnonces : ∀ a, st'.accountNonce.getD a 0 = st.accountNonce.getD a 0)
  | select (hseq : ¬ tx.getNonce > (lastSeq tx.getSourceAddress st).1 + 1) (hset : st'.set = st.set ++ [tx.env])
      (hseqs : st'.topicSeqs = st.topicSeqs.insert tx.getSourceAddress tx.getNonce)
      (hnonces : ∀ a, st'.accountNonce.getD a 0 = st.accountNonce.getD a 0)

theorem pass_visit (n : QueueNode) (st : Top) (x : NodeId × QueuedTx) : Pass x.2 st (visit n st x) := by
  obtain ⟨hset, hseqs⟩ := lastSeq_snd x.2.getSourceAddress { st with setSize := st.setSize + n.byteSize x.2.env }
  have hnonces := fun b => getD_lastSeq x.2.getSourceAddress b { st with setSize := st.setSize + n.byteSize x.2.env }
  unfold visit
  dsimp only
  split
  · exact .skip rfl rfl fun _ => rfl
  split
  · exact .skip hset hseqs hnonces
  · rename_i hseq
    refine .select ?_ (congrArg (· ++ [x.2.env]) hset) (congrArg (·.insert x.2.getSourceAddress x.2.getNonce) hseqs)
      hnonces
    rw [lastSeq_fst] at hseq ⊢
    exact hseq

theorem topLoop_cons_eq (n : QueueNode) (limit : ℕ) (x : NodeId × QueuedTx) (l : List (NodeId × QueuedTx)) (st : Top) :
    st.set.length < limit ∧ Fits n x.2 st ∧ topLoop n limit (x :: l) st = topLoop n limit l (visit n st x) ∨
      ¬ (st.set.length < limit ∧ Fits n x.2 st) ∧ topLoop n limit (x :: l) st = st := by
  rw [topLoop]
  split
  · rename_i hlimit
    dsimp only
    split
    · rename_i hover
      rw [Bool.and_eq_true, decide_eq_true_eq, decide_eq_true_eq] at hover
      refine .inr ⟨fun h => ?_, rfl⟩
      rcases h.2 with hfits | hfits
      · exact absurd hover.1 (Nat.not_le.mpr hfits)
      · exact absurd hover.2 (Nat.not_le.mpr hfits)
    · rename_i hover
      rw [Bool.and_eq_true, decide_eq_true_eq, decide_eq_true_eq, not_and_or, Nat.not_le, Nat.not_le] at hover
      refine .inl ⟨hlimit, hover, ?_⟩
      unfold visit
      dsimp only
      split
      · rfl
      split
      · rfl
      · rfl
  · rename_i hlimit
    exact .inr ⟨fun h => hlimit h.1, rfl⟩

/-! ### Nonces -/

/-- The nonces that were selected of an account. -/
def chosen (a : Address) (set : List TransactionEnv) : List ℤ :=
  (set.filter fun e => e.transaction.sourceAddress == a).map fun e => e.transaction.nonce.toInt

def successors (base : ℤ) (k : ℕ) : List ℤ := (range k).map fun i : ℕ => base + 1 + (i : ℤ)

theorem successors_succ (base : ℤ) (k : ℕ) : successors base (k + 1) = successors base k ++ [base + 1 + k] := by
  simp [successors, range_succ]

theorem mem_successors {base z : ℤ} {k : ℕ} : z ∈ successors base k ↔ base < z ∧ z ≤ base + k := by
  simp only [successors, mem_map, mem_range]
  constructor
  · rintro ⟨i, hi, rfl⟩
    omega
  · rintro ⟨hlt, hle⟩
    exact ⟨(z - base - 1).toNat, by omega, by omega⟩

theorem chosen_append (a : Address) (set : List TransactionEnv) (e : TransactionEnv) :
    chosen a (set ++ [e]) = chosen a set ++ if e.transaction.sourceAddress = a then [e.transaction.nonce.toInt] else [] := by
  by_cases h : e.transaction.sourceAddress = a
  · simp [chosen, h]
  · simp [chosen, h]

/-- The loop has selected the next nonces of every account, and the cursor of the account is at the last of them. -/
structure Selecting (base : Address → Int64) (rest : List (NodeId × QueuedTx)) (st : Top) : Prop where
  nonces : ∀ a, st.accountNonce.getD a 0 = base a
  dense : ∀ a, chosen a st.set = successors (base a).toInt (chosen a st.set).length
  cursor : ∀ a, (lastSeq a st).1.toInt = (base a).toInt + (chosen a st.set).length
  fresh : ∀ x ∈ rest, x.2.getNonce.toInt ∉ chosen x.2.getSourceAddress st.set

section Step
variable {base : Address → Int64} {x : NodeId × QueuedTx} {rest : List (NodeId × QueuedTx)} {st st' : Top}

theorem Selecting.congr (h : Selecting base rest st) (hset : st'.set = st.set) (hseqs : st'.topicSeqs = st.topicSeqs)
    (hnonces : ∀ a, st'.accountNonce.getD a 0 = st.accountNonce.getD a 0) : Selecting base rest st' where
  nonces a := (hnonces a).trans (h.nonces a)
  dense a := hset ▸ h.dense a
  cursor a := by
    have hcursor := h.cursor a
    rw [lastSeq_fst] at hcursor ⊢
    rw [hset, hseqs, hnonces]
    exact hcursor
  fresh := hset ▸ h.fresh

theorem Selecting.tail (h : Selecting base (x :: rest) st) : Selecting base rest st :=
  ⟨h.nonces, h.dense, h.cursor, fun y hy => h.fresh y (mem_cons_of_mem _ hy)⟩

theorem Selecting.next (h : Selecting base (x :: rest) st) (hstale : base x.2.getSourceAddress < x.2.getNonce)
    (hseq : ¬ x.2.getNonce > (lastSeq x.2.getSourceAddress st).1 + 1) :
    x.2.getNonce.toInt = (base x.2.getSourceAddress).toInt + 1 + (chosen x.2.getSourceAddress st.set).length := by
  have hfresh := h.fresh x mem_cons_self
  have hcursor := h.cursor x.2.getSourceAddress
  rw [h.dense, mem_successors] at hfresh
  rw [gt_iff_lt, Int64.lt_iff_toInt_lt, Int64.toInt_add] at hseq
  rw [Int64.lt_iff_toInt_lt] at hstale
  have hone : (1 : Int64).toInt = 1 := rfl
  have hlt := (lastSeq x.2.getSourceAddress st).1.toInt_lt
  have hle := (base x.2.getSourceAddress).le_toInt
  have hnonce := x.2.getNonce.toInt_lt
  rw [hone] at hseq
  -- the last nonce has no successor, and every nonce is beyond what the sum is then
  by_cases hmax : (lastSeq x.2.getSourceAddress st).1.toInt + 1 < 2 ^ 63
  · rw [SafeInt.bmod_of_range (by omega) (by omega)] at hseq
    omega
  · have hwrap : ((lastSeq x.2.getSourceAddress st).1.toInt + 1).bmod (2 ^ 64) = -2 ^ 63 := by
      have heq : (lastSeq x.2.getSourceAddress st).1.toInt + 1 = 2 ^ 63 := by omega
      rw [heq]
      decide
    omega

theorem Selecting.select (h : Selecting base (x :: rest) st)
    (hkeys : ∀ y ∈ rest, y.2.getSourceAddress = x.2.getSourceAddress → y.2.getNonce ≠ x.2.getNonce)
    (hnext : x.2.getNonce.toInt = (base x.2.getSourceAddress).toInt + 1 + (chosen x.2.getSourceAddress st.set).length)
    (hset : st'.set = st.set ++ [x.2.env])
    (hseqs : st'.topicSeqs = st.topicSeqs.insert x.2.getSourceAddress x.2.getNonce)
    (hnonces : ∀ a, st'.accountNonce.getD a 0 = st.accountNonce.getD a 0) : Selecting base rest st' := by
  have hchosen : ∀ a, chosen a st'.set =
      chosen a st.set ++ if x.2.getSourceAddress = a then [x.2.getNonce.toInt] else [] := fun a => by
    rw [hset, chosen_append]
    rfl
  refine ⟨fun a => (hnonces a).trans (h.nonces a), fun a => ?_, fun a => ?_, fun y hy => ?_⟩
  · rw [hchosen]
    by_cases ha : x.2.getSourceAddress = a
    · subst ha
      rw [if_pos rfl, length_append, length_singleton, successors_succ, ← h.dense, hnext]
    · rw [if_neg ha, append_nil]
      exact h.dense a
  · rw [lastSeq_fst, hseqs, hchosen]
    by_cases ha : x.2.getSourceAddress = a
    · subst ha
      rw [if_pos rfl, TreeMap.getElem?_insert_self, Option.getD_some, hnext, length_append, length_singleton]
      omega
    · rw [if_neg ha, append_nil, Table.insert_of_ne (Ne.symm ha), hnonces, ← lastSeq_fst]
      exact h.cursor a
  · rw [hchosen, mem_append, not_or]
    refine ⟨h.fresh y (mem_cons_of_mem _ hy), ?_⟩
    split
    · rename_i hsource
      rw [mem_singleton, Int64.toInt_inj]
      exact hkeys y hy hsource.symm
    · exact not_mem_nil

end Step

theorem topLoop_selects {base : Address → Int64} {l : List (NodeId × QueuedTx)} {st : Top}
    (hkeys : (l.map fun x => (x.2.getSourceAddress, x.2.getNonce)).Nodup)
    (hstale : ∀ x ∈ l, base x.2.getSourceAddress < x.2.getNonce) (h : Selecting base l st) (a : Address) :
    ∃ k, chosen a (topLoop n limit l st).set = successors (base a).toInt k := by
  induction l generalizing st with
  | nil => exact ⟨_, h.dense a⟩
  | cons x l ih =>
    rw [map_cons, nodup_cons] at hkeys
    have hother : ∀ y ∈ l, y.2.getSourceAddress = x.2.getSourceAddress → y.2.getNonce ≠ x.2.getNonce :=
      fun y hy hsource hnonce => hkeys.1 (mem_map.mpr ⟨y, hy, Prod.ext hsource hnonce⟩)
    have hrest : ∀ y ∈ l, base y.2.getSourceAddress < y.2.getNonce := fun y hy => hstale y (mem_cons_of_mem _ hy)
    rcases topLoop_cons_eq n limit x l st with ⟨-, -, hgo⟩ | ⟨-, hstop⟩
    swap
    · rw [hstop]
      exact ⟨_, h.dense a⟩
    rw [hgo]
    cases pass_visit n st x with
    | skip hset hseqs hnonces => exact ih hkeys.2 hrest (h.tail.congr hset hseqs hnonces)
    | select hseq hset hseqs hnonces =>
      have hnext := h.next (hstale x mem_cons_self) hseq
      exact ih hkeys.2 hrest (h.select hother hnext hset hseqs hnonces)

theorem Found.keys_nodup (h : Found q) : (q.queue.map fun x => (x.2.getSourceAddress, x.2.getNonce)).Nodup := by
  refine List.Nodup.map_on (fun x hx y hy hxy => ?_) (.of_map _ h.ids)
  exact h.unique hx hy (congrArg Prod.fst hxy) (congrArg Prod.snd hxy)

/-- After any calls: if no transaction in the queue is at or below the nonce of its account, then the transactions
selected of an account have the nonces that follow that of the account, one after the other. -/
theorem topTransaction_consecutive (n : QueueNode) (queueLimit accountTxsLimit : ℕ) (l : List Call)
    (hq : calls n l { queueLimit, accountTxsLimit } = some q)
    (hstale : ∀ x ∈ q.queue, nonceOf q x.2.getSourceAddress < x.2.getNonce) (limit : ℕ) (a : Address) :
    ∃ k, chosen a (topTransaction n limit q).1 = successors (nonceOf q a).toInt k := by
  have hfound := (arranged_empty queueLimit accountTxsLimit).toFound.calls hq
  refine topLoop_selects hfound.keys_nodup hstale ⟨fun _ => rfl, fun _ => rfl, fun a => ?_, fun _ _ => not_mem_nil⟩ a
  rw [lastSeq_fst, TreeMap.getElem?_emptyc]
  exact (add_zero _).symm

/-- Three transactions of one account, one of them beyond a gap. -/
def gapCalls : List Call :=
  [.importTx (namedTx "a" 6 1 "a6") 4 {}, .importTx (namedTx "a" 8 1 "a8") 4 {},
    .importTx (namedTx "a" 5 1 "a5") 4 {}, .importTx (namedTx "b" 1 3 "b1") 0 {}]

theorem topTransaction_consecutive_gap :
    ∃ q, calls listNode gapCalls { queueLimit := 10, accountTxsLimit := 5 } = some q ∧
      chosen "a" (topTransaction listNode 10 q).1 = [5, 6] ∧
      ∃ k, chosen "a" (topTransaction listNode 10 q).1 = successors (nonceOf q "a").toInt k := by
  have hall : (calls listNode gapCalls { queueLimit := 10, accountTxsLimit := 5 }).any
      (fun q => decide (∀ x ∈ q.queue, nonceOf q x.2.getSourceAddress < x.2.getNonce) &&
        decide (chosen "a" (topTransaction listNode 10 q).1 = [5, 6])) = true := by
    decide +kernel
  obtain ⟨q, hq, hboth⟩ := (Option.any_eq_true ..).mp hall
  obtain ⟨hstale, hchosen⟩ := Bool.and_eq_true_iff.mp hboth
  exact ⟨q, hq, of_decide_eq_true hchosen,
    topTransaction_consecutive listNode 10 5 gapCalls hq (of_decide_eq_true hstale) 10 "a"⟩

/-- A transaction is queued while its account moves on. -/
def staleCalls : List Call :=
  [.importTx (namedTx "a" 5 1 "a5") 4 {}, .importTx (namedTx "a" 7 1 "a7") 6 {}]

/-- The transaction below the nonce of its account is selected, and the next one is taken for one beyond a gap. -/
theorem topTransaction_stale : (calls listNode staleCalls { queueLimit := 10, accountTxsLimit := 5 }).map
      (fun q => (nonceOf q "a", chosen "a" (topTransaction listNode 10 q).1)) = some (6, [5]) := by
  decide +kernel

/-! ### Size -/

end TransactionQueue
end OpenSesame
