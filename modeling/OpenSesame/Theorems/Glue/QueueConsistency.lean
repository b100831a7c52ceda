import OpenSesame.Theorems.Glue.QueueIndex

/-! # The transaction queue is consistent after every sequence of calls

A call takes slots out, or puts one in for an account that has room and then takes slots out while
there are too many. -/

namespace OpenSesame
open Protocol Std TransactionQueue List

namespace TransactionQueue
variable {n : QueueNode} {S : List TransactionEnv} {L : List Slot} {q q' : TransactionQueue} {a : Address}

structure Shrinks (n : QueueNode) (S : List TransactionEnv) (L : List Slot) (q q' : TransactionQueue) (L' : List Slot) : Prop where
  indexes : Indexes n S none L' q'
  sublist : L'.Sublist L
  queueLimit : q'.queueLimit = q.queueLimit
  accountTxsLimit : q'.accountTxsLimit = q.accountTxsLimit

namespace Shrinks

theorem refl (h : Indexes n S none L q) : Shrinks n S L q q L := ⟨h, .refl L, rfl, rfl⟩

theorem trans {q₂ : TransactionQueue} {L₁ L₂ : List Slot} (h : Shrinks n S L q q' L₁) (h' : Shrinks n S L₁ q' q₂ L₂) :
    Shrinks n S L q q₂ L₂ :=
  ⟨h'.indexes, h'.sublist.trans h.sublist, h'.queueLimit.trans h.queueLimit, h'.accountTxsLimit.trans h.accountTxsLimit⟩

end Shrinks

def Call.imported : Call → Option TransactionEnv
  | .importTx tx _ _ => some tx.env
  | _ => none

structure Bounded (n : QueueNode) (S : List TransactionEnv) (L : List Slot) (q : TransactionQueue) : Prop where
  indexes : Indexes n S none L q
  size : L.length ≤ q.queueLimit
  accounts : ∀ a, held L a ≤ q.accountTxsLimit

theorem Bounded.shrinks {L' : List Slot} (h : Bounded n S L q) (hs : Shrinks n S L q q' L') : Bounded n S L' q' where
  indexes := hs.indexes
  size := by
    rw [hs.queueLimit]
    exact hs.sublist.length_le.trans h.size
  accounts a := by
    rw [hs.accountTxsLimit]
    exact (held_le_of_sublist hs.sublist a).trans (h.accounts a)

/-! ### Changes of `account_nonce_` only -/

theorem Indexes.withNonces {extra extra' : Option Address} {m : TreeMap Address Int64} (h : Indexes n S extra L q)
    (hm : ∀ a, m.contains a = true ↔ 0 < held L a ∨ extra' = some a) :
    Indexes n S extra' L { q with accountNonce := m } :=
  ⟨h.queue, h.time, h.lefts, h.rights, h.keys, h.fresh, h.known, h.accounts, h.hashes, hm⟩

theorem Indexes.setNonce (h : Indexes n S none L q) (source : Address) (nonce : Int64) :
    Indexes n S (some source) L { q with accountNonce := q.accountNonce.insert source nonce } := by
  refine h.withNonces fun a => ?_
  have hnonces := h.nonces a
  rw [TreeMap.contains_insert]
  simp only [Bool.or_eq_true, beq_iff_eq, LawfulEqCmp.compare_eq_iff_eq, hnonces, Option.some_inj, reduceCtorEq,
    or_false]
  exact or_comm

theorem Indexes.absorb (h : Indexes n S (some a) L q) (ha : 0 < held L a) : Indexes n S none L q := by
  refine h.withNonces fun b => ?_
  rw [h.nonces b]
  constructor
  · rintro (hb | hb)
    · exact .inl hb
    · cases hb
      exact .inl ha
  · rintro (hb | hb)
    · exact .inl hb
    · cases hb

theorem Indexes.raiseNonce (h : Indexes n S none L q) (closeLedger : Bool) (a : Address) (nonce : Int64) :
    Shrinks n S L q (TransactionQueue.raiseNonce closeLedger a nonce q) L := by
  unfold TransactionQueue.raiseNonce
  rcases hheld : q.accountNonce[a]? with - | old
  · exact .refl h
  dsimp only
  split
  · have ha : 0 < held L a := by
      rcases (h.nonces a).mp (Table.contains_iff.mpr ⟨_, hheld⟩) with hpos | hnone
      · exact hpos
      · cases hnone
    exact ⟨(h.setNonce a nonce).absorb ha, .refl L, rfl, rfl⟩
  · exact .refl h

theorem contains_lastSeq {st : Top} {b : Address} (h : st.accountNonce.contains b = true) :
    (lastSeq b st).2.accountNonce.contains a = true ↔ st.accountNonce.contains a = true := by
  unfold lastSeq
  split
  · exact Iff.rfl
  · rw [TreeMap.contains_insertIfNew]
    simp only [Bool.or_eq_true, beq_iff_eq, LawfulEqCmp.compare_eq_iff_eq]
    refine ⟨?_, .inr⟩
    rintro (rfl | ha)
    · exact h
    · exact ha

theorem contains_topLoop {limit : ℕ} {l : List (NodeId × QueuedTx)} {st : Top}
    (h : ∀ x ∈ l, st.accountNonce.contains x.2.getSourceAddress = true) :
    (topLoop n limit l st).accountNonce.contains a = true ↔ st.accountNonce.contains a = true := by
  induction l generalizing st with
  | nil => exact Iff.rfl
  | cons node l ih =>
    have hnode := h node mem_cons_self
    have hl : ∀ x ∈ l, st.accountNonce.contains x.2.getSourceAddress = true := fun x hx => h x (mem_cons_of_mem _ hx)
    unfold topLoop
    split
    · dsimp only
      split
      · exact Iff.rfl
      split
      · exact ih hl
      split
      · refine (ih fun x hx => ?_).trans (contains_lastSeq hnode)
        refine (contains_lastSeq ?_).mpr (hl x hx)
        exact hnode
      · refine (ih fun x hx => ?_).trans (contains_lastSeq hnode)
        refine (contains_lastSeq ?_).mpr (hl x hx)
        exact hnode
    · exact Iff.rfl

theorem Indexes.topTransaction (h : Indexes n S none L q) (limit : ℕ) :
    Shrinks n S L q (topTransaction n limit q).2 L := by
  refine ⟨h.withNonces fun a => ?_, .refl L, rfl, rfl⟩
  exact (contains_topLoop fun x hx => h.contains_of_mem hx).trans (h.nonces a)

/-! ### Taking transactions out -/

section Hash
variable (hhash : ∀ e ∈ S, ∀ e' ∈ S, n.contentHash e = n.contentHash e' → e.transaction = e'.transaction)
include hhash

theorem Indexes.reopensesame (h : Indexes n S none L q) (a : Address) (nonce : Int64) :
    ∃ found q' L', TransactionQueue.reopensesame n a nonce q = some (found, q') ∧ Shrinks n S L q q' L' ∧
      ∀ x ∈ L, x.key = (a, nonce) → L'.length < L.length := by
  have hstay : (∀ x ∈ L, x.key ≠ (a, nonce)) → ∃ (found : Option QueuedTx) (q' : TransactionQueue) (L' : List Slot),
      some (none, q) = some (found, q') ∧ Shrinks n S L q q' L' ∧ ∀ x ∈ L, x.key = (a, nonce) → L'.length < L.length := fun hnone =>
    ⟨none, q, L, rfl, .refl h, fun x hx hkey => absurd hkey (hnone x hx)⟩
  unfold TransactionQueue.reopensesame
  rcases hm : q.queueByAddressAndNonce[a]? with - | m
  · refine hstay fun x hx hkey => ?_
    obtain ⟨m, hm', -⟩ := h.account hx
    rw [(key_eq_iff.mp hkey).1, hm] at hm'
    cases hm'
  dsimp only
  split
  · rename_i hcontains
    obtain ⟨its, hits⟩ := Table.contains_iff.mp hcontains
    obtain ⟨x, hx, hkey, -⟩ := h.of_account hm hits
    obtain ⟨hsource, hnonce⟩ := key_eq_iff.mp hkey
    obtain ⟨q', hq', hindexes, hqueueLimit, haccountTxsLimit⟩ := h.remove hhash hx
    rw [hsource, hnonce] at hq'
    refine ⟨some x.tx, q', others x L, by rw [hq']; rfl,
      ⟨hindexes, others_sublist x L, hqueueLimit, haccountTxsLimit⟩, fun _ _ _ => ?_⟩
    exact Nat.lt_of_succ_le (length_others h.lefts hx).le
  · rename_i hcontains
    refine hstay fun x hx hkey => hcontains ?_
    obtain ⟨hsource, hnonce⟩ := key_eq_iff.mp hkey
    obtain ⟨m', hm', hits, -⟩ := h.account hx
    rw [hsource, hm] at hm'
    cases hm'
    rw [hnonce] at hits
    exact Table.contains_iff.mpr ⟨_, hits⟩

theorem Indexes.evict (h : Indexes n S none L q) (tx : QueuedTx) {fuel : ℕ} (hfuel : L.length < fuel) (inserted : Bool)
    (result : Result) :
    ∃ inserted' result' q' L', evict n tx fuel inserted result q = some (inserted', result', q') ∧
      Shrinks n S L q q' L' ∧ L'.length ≤ q.queueLimit := by
  induction fuel generalizing L q inserted result with
  | zero => exact absurd hfuel (Nat.not_lt_zero _)
  | succ fuel ih =>
    unfold evict
    split
    · rename_i hover
      rcases hlast : q.queue.getLast? with - | ⟨i, t⟩
      · rw [getLast?_eq_none_iff.mp hlast] at hover
        exact absurd hover (Nat.not_lt_zero _)
      obtain ⟨x, hx, hnode⟩ := mem_map.mp (h.queue.mem_iff.mp (mem_of_getLast? hlast))
      cases hnode
      obtain ⟨found, q₁, L₁, hq₁, hshrinks, hless⟩ := h.reopensesame hhash x.tx.getSourceAddress x.tx.getNonce
      have hlt : L₁.length < fuel := (hless x hx rfl).trans_le (Nat.le_of_lt_succ hfuel)
      simp only [hq₁]
      split
      · obtain ⟨inserted', result', q', L', heq, hs, hsize⟩ := ih hshrinks.indexes hlt false _
        exact ⟨inserted', result', q', L', heq, hshrinks.trans hs, hshrinks.queueLimit ▸ hsize⟩
      · obtain ⟨inserted', result', q', L', heq, hs, hsize⟩ := ih hshrinks.indexes hlt inserted result
        exact ⟨inserted', result', q', L', heq, hshrinks.trans hs, hshrinks.queueLimit ▸ hsize⟩
    · rename_i hover
      rw [h.length_queue] at hover
      exact ⟨inserted, result, q, L, rfl, .refl h, Nat.le_of_not_lt hover⟩

theorem Indexes.timeoutLoop (h : Indexes n S none L q) (expireTime : Int64) {fuel : ℕ} (hfuel : L.length < fuel) :
    ∃ txs q' L', timeoutLoop n expireTime fuel q = some (txs, q') ∧ Shrinks n S L q q' L' := by
  induction fuel generalizing L q with
  | zero => exact absurd hfuel (Nat.not_lt_zero _)
  | succ fuel ih =>
    unfold timeoutLoop
    rcases htime : q.timeQueue with - | ⟨⟨i, t⟩, l⟩
    · exact ⟨[], q, L, rfl, .refl h⟩
    dsimp only
    split
    · have hmem : (i, t) ∈ q.timeQueue := htime ▸ List.mem_cons_self
      obtain ⟨x, hx, hnode⟩ := List.mem_map.mp (h.time.mem_iff.mp hmem)
      cases hnode
      obtain ⟨found, q₁, L₁, hq₁, hshrinks, hless⟩ := h.reopensesame hhash x.tx.getSourceAddress x.tx.getNonce
      have hlt : L₁.length < fuel := (hless x hx rfl).trans_le (Nat.le_of_lt_succ hfuel)
      obtain ⟨txs, q', L', heq, hs⟩ := ih hshrinks.indexes hlt
      refine ⟨x.tx :: txs, q', L', ?_, hshrinks.trans hs⟩
      simp only [hq₁, Option.bind_eq_bind, Option.bind_some, heq, Option.pure_def]
    · exact ⟨[], q, L, rfl, .refl h⟩

theorem Indexes.reopensesameTxs (h : Indexes n S none L q) (closeLedger : Bool) (set : List TransactionEnv) :
    ∃ ret q' L', reopensesameTxs n closeLedger set q = some (ret, q') ∧ Shrinks n S L q q' L' := by
  induction set generalizing L q with
  | nil => exact ⟨0, q, L, rfl, .refl h⟩
  | cons env l ih =>
    obtain ⟨found, q₁, L₁, hq₁, hshrinks, -⟩ := h.reopensesame hhash env.transaction.sourceAddress env.transaction.nonce
    have hraised := hshrinks.indexes.raiseNonce closeLedger env.transaction.sourceAddress env.transaction.nonce
    obtain ⟨ret, q', L', heq, hs⟩ := ih hraised.indexes
    refine ⟨found.isSome.toNat + ret, q', L', ?_, (hshrinks.trans hraised).trans hs⟩
    simp only [reopensesameTxs, hq₁, Option.bind_eq_bind, Option.bind_some, heq, Option.pure_def]

theorem Indexes.reopensesameTxFrms (h : Indexes n S none L q) (closeLedger : Bool) (txs : List QueuedTx) :
    ∃ q' L', reopensesameTxFrms n closeLedger txs q = some q' ∧ Shrinks n S L q q' L' := by
  induction txs generalizing L q with
  | nil => exact ⟨q, L, rfl, .refl h⟩
  | cons tx l ih =>
    obtain ⟨found, q₁, L₁, hq₁, hshrinks, -⟩ := h.reopensesame hhash tx.getSourceAddress tx.getNonce
    have hraised := hshrinks.indexes.raiseNonce closeLedger tx.getSourceAddress tx.getNonce
    obtain ⟨q', L', heq, hs⟩ := ih hraised.indexes
    refine ⟨q', L', ?_, (hshrinks.trans hraised).trans hs⟩
    simp only [reopensesameTxFrms, hq₁, Option.bind_eq_bind, Option.bind_some, heq]

/-! ### `Import` -/

theorem Indexes.importNew {tx : QueuedTx} (h : Indexes n S (some tx.getSourceAddress) L q)
    (htx : tx.env ∈ S) (hkey : ∀ y ∈ L, y.key ≠ (tx.getSourceAddress, tx.getNonce)) (hlimit : 1 ≤ q.accountTxsLimit)
    (hsize : L.length ≤ q.queueLimit) (hheld : ∀ a, held L a ≤ q.accountTxsLimit) (replace : Bool)
    (hreplace : replace = true → held L tx.getSourceAddress < q.accountTxsLimit) (result : Result) :
    ∃ inserted result' q' L',
      TransactionQueue.importNew n tx replace (held L tx.getSourceAddress) result q = some (inserted, result', q') ∧
      Bounded n S L' q' ∧ q'.queueLimit = q.queueLimit ∧ q'.accountTxsLimit = q.accountTxsLimit := by
  by_cases hroom : (replace || decide (held L tx.getSourceAddress < q.accountTxsLimit)) = true
  · have hless : held L tx.getSourceAddress < q.accountTxsLimit := by
      rcases Bool.or_eq_true_iff.mp hroom with hroom | hroom
      · exact hreplace hroom
      · exact of_decide_eq_true hroom
    have hinserted := h.insert hhash htx hkey
    have hfuel : (newSlot q tx :: L).length < (TransactionQueue.insert n tx q).queue.length + 1 := by
      rw [hinserted.length_queue]
      exact Nat.lt_succ_self _
    obtain ⟨inserted, result', q', L', heq, hs, hfits⟩ := hinserted.evict hhash tx hfuel true result
    have hqueueLimit : q'.queueLimit = q.queueLimit := hs.queueLimit
    have haccountTxsLimit : q'.accountTxsLimit = q.accountTxsLimit := hs.accountTxsLimit
    refine ⟨inserted, result', q', L', ?_, ⟨hs.indexes, hqueueLimit ▸ hfits, fun a => ?_⟩, hqueueLimit,
      haccountTxsLimit⟩
    · have hbelow : ¬ held L tx.getSourceAddress ≥ q'.accountTxsLimit := by
        rw [haccountTxsLimit]
        exact Nat.not_le_of_lt hless
      simp only [TransactionQueue.importNew, hroom, if_true, heq, Option.bind_eq_bind, Option.bind_some, hbelow,
        if_false, Option.pure_def]
    · -- the account of the transaction had room for it
      rw [haccountTxsLimit]
      refine (held_le_of_sublist hs.sublist a).trans ?_
      rw [held_cons]
      by_cases ha : (newSlot q tx).source = a
      · rw [if_pos ha, ← ha]
        exact hless
      · rw [if_neg ha]
        exact hheld a
  · have hfull : held L tx.getSourceAddress ≥ q.accountTxsLimit := by
      refine Nat.le_of_not_lt fun hless => hroom ?_
      rw [decide_eq_true hless, Bool.or_true]
    have hpos : 0 < held L tx.getSourceAddress := hlimit.trans hfull
    refine ⟨false, result.set .txInsertQueueFail (exceedsDesc n tx), q, L, ?_, ⟨h.absorb hpos, hsize, hheld⟩, rfl, rfl⟩
    simp only [TransactionQueue.importNew, hroom, Option.bind_eq_bind, Option.bind_some, hfull, if_true,
      Option.pure_def]
    rfl

theorem Bounded.importTx (h : Bounded n S L q) (hlimit : 1 ≤ q.accountTxsLimit) {tx : QueuedTx} (htx : tx.env ∈ S)
    (curSourceNonce : Int64) (result : Result) :
    ∃ inserted result' q' L', TransactionQueue.importTx n tx curSourceNonce result q = some (inserted, result', q') ∧
      Bounded n S L' q' ∧ q'.queueLimit = q.queueLimit ∧ q'.accountTxsLimit = q.accountTxsLimit := by
  have hset := h.indexes.setNonce tx.getSourceAddress curSourceNonce
  have haccount := h.indexes.accounts tx.getSourceAddress
  unfold TransactionQueue.importTx
  dsimp only
  rcases hm : q.queueByAddressAndNonce[tx.getSourceAddress]? with - | m
  · rw [hm] at haccount
    have hkey : ∀ y ∈ L, y.key ≠ (tx.getSourceAddress, tx.getNonce) := fun y hy heq =>
      (held_pos.mpr ⟨y, hy, (key_eq_iff.mp heq).1⟩).ne' haccount
    have hnew := hset.importNew hhash htx hkey hlimit h.size h.accounts false nofun result
    rw [haccount] at hnew
    exact hnew
  rw [hm] at haccount
  obtain ⟨hsize, hpos, hentries⟩ := haccount
  dsimp only
  rcases hits : m[tx.getNonce]? with - | its
  · have hkey : ∀ y ∈ L, y.key ≠ (tx.getSourceAddress, tx.getNonce) := by
      intro y hy heq
      have hsome := (hentries _ _).mpr ⟨y, hy, heq, rfl⟩
      rw [hits] at hsome
      cases hsome
    have hnew := hset.importNew hhash htx hkey hlimit h.size h.accounts false nofun result
    rw [← hsize] at hnew
    exact hnew
  obtain ⟨x, hx, hkey, rfl⟩ := (hentries _ _).mp hits
  obtain ⟨hsource, hnonce⟩ := key_eq_iff.mp hkey
  have hx' := hset.absorb hpos
  simp only [h.indexes.deref_left hx, Option.bind_eq_bind, Option.bind_some]
  split
  · -- the one that is there goes, and leaves room
    obtain ⟨q₁, hq₁, hindexes, hqueueLimit, haccountTxsLimit⟩ := hx'.remove hhash hx
    rw [hsource, hnonce] at hq₁
    have hheld : held L tx.getSourceAddress = held (others x L) tx.getSourceAddress + 1 := by
      rw [held_others h.indexes.lefts hx, if_pos hsource]
    have hless : held (others x L) tx.getSourceAddress < q.accountTxsLimit := by
      have hle := h.accounts tx.getSourceAddress
      rw [hheld] at hle
      exact hle
    have hsub := others_sublist x L
    have hset' := hindexes.setNonce tx.getSourceAddress curSourceNonce
    have hkey' : ∀ y ∈ others x L, y.key ≠ (tx.getSourceAddress, tx.getNonce) := by
      intro y hy heq
      obtain ⟨hy, hne⟩ := (mem_others h.indexes.lefts hx).mp hy
      exact hne (List.inj_on_of_nodup_map h.indexes.keys hy hx (heq.trans hkey.symm))
    have hnew := hset'.importNew hhash htx hkey' (haccountTxsLimit ▸ hlimit) (hqueueLimit ▸ hsub.length_le.trans h.size)
      (fun a => haccountTxsLimit ▸ (held_le_of_sublist hsub a).trans (h.accounts a)) true
      (fun _ => haccountTxsLimit ▸ hless) result
    obtain ⟨inserted, result', q', L', heq, hbounded, hql, hal⟩ := hnew
    refine ⟨inserted, result', q', L', ?_, hbounded, hql.trans hqueueLimit, hal.trans haccountTxsLimit⟩
    rw [hsize, hheld, Nat.add_sub_cancel, hq₁]
    exact heq
  · exact ⟨false, _, _, L, rfl, ⟨hx', h.size, h.accounts⟩, rfl, rfl⟩

/-! ### Sequences of calls -/

theorem Bounded.call (h : Bounded n S L q) (hlimit : 1 ≤ q.accountTxsLimit) {c : Call} (hc : ∀ e ∈ c.imported, e ∈ S) :
    ∃ q' L', TransactionQueue.call n c q = some q' ∧ Bounded n S L' q' ∧ q'.queueLimit = q.queueLimit ∧
      q'.accountTxsLimit = q.accountTxsLimit := by
  -- a call that takes transactions out keeps the bounds
  have hout : ∀ {q' L'}, Shrinks n S L q q' L' → TransactionQueue.call n c q = some q' →
      ∃ q' L', TransactionQueue.call n c q = some q' ∧ Bounded n S L' q' ∧ q'.queueLimit = q.queueLimit ∧
        q'.accountTxsLimit = q.accountTxsLimit := fun hs heq =>
    ⟨_, _, heq, h.shrinks hs, hs.queueLimit, hs.accountTxsLimit⟩
  cases c with
  | importTx tx curSourceNonce result =>
    obtain ⟨inserted, result', q', L', heq, hbounded, hlimits⟩ := h.importTx hhash hlimit (hc _ rfl) curSourceNonce result
    exact ⟨q', L', by rw [TransactionQueue.call, heq]; rfl, hbounded, hlimits⟩
  | topTransaction limit => exact hout (h.indexes.topTransaction limit) rfl
  | reopensesameTxs set closeLedger =>
    obtain ⟨ret, q', L', heq, hs⟩ := h.indexes.reopensesameTxs hhash closeLedger set
    exact hout hs (by rw [TransactionQueue.call, heq]; rfl)
  | reopensesameTxFrms txs closeLedger =>
    obtain ⟨q', L', heq, hs⟩ := h.indexes.reopensesameTxFrms hhash closeLedger txs
    exact hout hs heq
  | safeReopensesameTx address nonce =>
    obtain ⟨found, q', L', heq, hs, -⟩ := h.indexes.reopensesame hhash address nonce
    exact hout hs (by rw [TransactionQueue.call, safeReopensesameTx, heq]; rfl)
  | checkTimeoutAndDel currentTime =>
    have hfuel : L.length < q.timeQueue.length + 1 := by
      rw [h.indexes.length_timeQueue]
      exact Nat.lt_succ_self _
    obtain ⟨txs, q', L', heq, hs⟩ := h.indexes.timeoutLoop hhash _ hfuel
    exact hout hs (by rw [TransactionQueue.call, checkTimeoutAndDel, heq]; rfl)

theorem Bounded.calls (h : Bounded n S L q) (hlimit : 1 ≤ q.accountTxsLimit) {l : List Call}
    (hl : ∀ c ∈ l, ∀ e ∈ c.imported, e ∈ S) :
    ∃ q' L', calls n l q = some q' ∧ Bounded n S L' q' ∧ q'.queueLimit = q.queueLimit ∧
      q'.accountTxsLimit = q.accountTxsLimit := by
  induction l generalizing q L with
  | nil => exact ⟨q, L, rfl, h, rfl, rfl⟩
  | cons c l ih =>
    obtain ⟨q₁, L₁, heq₁, h₁, hqueueLimit, haccountTxsLimit⟩ := h.call hhash hlimit (hl c mem_cons_self)
    obtain ⟨q', L', heq, h', hql, hal⟩ := ih h₁ (haccountTxsLimit ▸ hlimit) fun d hd => hl d (mem_cons_of_mem _ hd)
    refine ⟨q', L', ?_, h', hql.trans hqueueLimit, hal.trans haccountTxsLimit⟩
    rw [calls, heq₁]
    exact heq

end Hash

/-- The containers hold the same transactions. -/
structure Consistent (n : QueueNode) (q : TransactionQueue) : Prop where
  /-- `time_queue_` holds what `queue_` holds. -/
  timeQueue : (q.timeQueue.map Prod.snd).Perm (q.queue.map Prod.snd)
  /-- Every transaction is found under its account and nonce. -/
  found : ∀ x ∈ q.queue, ∃ m its, q.queueByAddressAndNonce[x.2.getSourceAddress]? = some m ∧
    m[x.2.getNonce]? = some its ∧ its.1 = x.1
  /-- What is found is a transaction of that account and nonce, in both queues. -/
  refers : ∀ (a : Address) (m : TreeMap Int64 (NodeId × NodeId)) (nonce : Int64) (its : NodeId × NodeId),
    q.queueByAddressAndNonce[a]? = some m → m[nonce]? = some its →
    ∃ tx, (its.1, tx) ∈ q.queue ∧ (its.2, tx) ∈ q.timeQueue ∧ tx.getSourceAddress = a ∧ tx.getNonce = nonce
  /-- An account that is found has a transaction. -/
  accounts : ∀ (a : Address) (m : TreeMap Int64 (NodeId × NodeId)), q.queueByAddressAndNonce[a]? = some m → 0 < m.size
  hashes : ∀ hash tx, q.queueByHash[hash]? = some tx ↔ tx ∈ q.queue.map Prod.snd ∧ n.contentHash tx.env = hash
  unique : (q.queue.map fun x => (x.2.getSourceAddress, x.2.getNonce)).Nodup
  nonces : ∀ a, q.accountNonce.contains a = true ↔ ∃ x ∈ q.queue, x.2.getSourceAddress = a
  size : q.queue.length ≤ q.queueLimit
  accountTxs : ∀ a, (q.queue.filter fun x => x.2.getSourceAddress == a).length ≤ q.accountTxsLimit

theorem Bounded.consistent (h : Bounded n S L q) : Consistent n q where
  timeQueue := by
    have hqueue := h.indexes.queue.map Prod.snd
    have htime := h.indexes.time.map Prod.snd
    rw [List.map_map] at hqueue htime
    exact htime.trans hqueue.symm
  found := by
    intro node hnode
    obtain ⟨x, hx, rfl⟩ := List.mem_map.mp (h.indexes.queue.mem_iff.mp hnode)
    obtain ⟨m, hm, hits, -⟩ := h.indexes.account hx
    exact ⟨m, _, hm, hits, rfl⟩
  refers := by
    intro a m nonce its hm hits
    obtain ⟨x, hx, hkey, rfl⟩ := h.indexes.of_account hm hits
    obtain ⟨hsource, hnonce⟩ := key_eq_iff.mp hkey
    refine ⟨x.tx, h.indexes.queue.mem_iff.mpr ?_, h.indexes.time.mem_iff.mpr ?_, hsource, hnonce⟩
    · exact List.mem_map.mpr ⟨x, hx, rfl⟩
    · exact List.mem_map.mpr ⟨x, hx, rfl⟩
  accounts := by
    intro a m hm
    have haccount := h.indexes.accounts a
    rw [hm] at haccount
    exact haccount.1 ▸ haccount.2.1
  hashes := by
    intro hash tx
    rw [h.indexes.hashes, (h.indexes.queue.map Prod.snd).mem_iff, List.map_map, List.mem_map]
    constructor
    · rintro ⟨x, hx, htx, hhash⟩
      exact ⟨⟨x, hx, htx⟩, hhash⟩
    · rintro ⟨⟨x, hx, htx⟩, hhash⟩
      exact ⟨x, hx, htx, hhash⟩
  unique := by
    rw [(h.indexes.queue.map _).nodup_iff, List.map_map]
    exact h.indexes.keys
  nonces := by
    intro a
    rw [h.indexes.nonces, held_pos]
    constructor
    · rintro (⟨x, hx, hsource⟩ | hnone)
      · exact ⟨x.leftNode, h.indexes.queue.mem_iff.mpr (List.mem_map.mpr ⟨x, hx, rfl⟩), hsource⟩
      · cases hnone
    · rintro ⟨node, hnode, hsource⟩
      obtain ⟨x, hx, rfl⟩ := List.mem_map.mp (h.indexes.queue.mem_iff.mp hnode)
      exact .inl ⟨x, hx, hsource⟩
  size := h.indexes.length_queue ▸ h.size
  accountTxs := by
    intro a
    rw [(h.indexes.queue.filter _).length_eq, List.filter_map, List.length_map]
    exact h.accounts a

theorem bounded_empty (queueLimit accountTxsLimit : ℕ) : Bounded n S [] { queueLimit, accountTxsLimit } where
  indexes := {
    queue := .refl _
    time := .refl _
    lefts := nodup_nil
    rights := nodup_nil
    keys := nodup_nil
    fresh := nofun
    known := nofun
    accounts := fun a => by
      rw [TreeMap.getElem?_emptyc]
      rfl
    hashes := fun hash tx => by simp
    nonces := fun a => by simp [held] }
  size := Nat.zero_le _
  accounts _ := Nat.zero_le _

/-- Whatever is called, no call follows an iterator that is gone, every loop ends, and the containers of the queue hold
the same transactions, within the limits. -/
theorem calls_consistent (n : QueueNode) (queueLimit : ℕ) {accountTxsLimit : ℕ} (hlimit : 1 ≤ accountTxsLimit)
    (l : List Call)
    (hhash : ∀ e ∈ l.filterMap Call.imported, ∀ e' ∈ l.filterMap Call.imported,
      n.contentHash e = n.contentHash e' → e.transaction = e'.transaction) :
    ∃ q, calls n l { queueLimit, accountTxsLimit } = some q ∧ Consistent n q ∧ q.queueLimit = queueLimit ∧
      q.accountTxsLimit = accountTxsLimit := by
  have hl : ∀ c ∈ l, ∀ e ∈ c.imported, e ∈ l.filterMap Call.imported := fun c hc e he => mem_filterMap.mpr ⟨c, hc, he⟩
  obtain ⟨q, L, heq, h, hlimits⟩ := (bounded_empty queueLimit accountTxsLimit).calls hhash hlimit hl
  exact ⟨q, heq, h.consistent, hlimits⟩

def listNode : QueueNode where
  contentHash e := e.transaction.metadata
  binToHexString s := s
  outbids price p := 10 * (price.toInt - p.toInt) ≥ p.toInt
  byteSize _ := 1
  setByteSize l := l.length
  search less l tx := (l, (l.takeWhile fun x => !less tx x).length)
  search_mem _ _ _ _ hx := hx

def namedTx (source : Address) (nonce gasPrice : Int64) (name : String) : QueuedTx where
  env := { transaction := { sourceAddress := source, nonce, gasPrice, metadata := name } }
  incomingTime := 0

/-- A replacement, a transaction too many for its account and one too many for the queue. -/
def fullQueueCalls : List Call :=
  [.importTx (namedTx "a" 1 10 "first") 0 {}, .importTx (namedTx "a" 1 20 "second") 0 {},
    .importTx (namedTx "a" 2 20 "third") 0 {}, .importTx (namedTx "b" 1 5 "fourth") 0 {},
    .importTx (namedTx "c" 1 30 "fifth") 0 {}, .topTransaction 10]

theorem calls_consistent_fullQueue : (calls listNode fullQueueCalls { queueLimit := 2, accountTxsLimit := 1 }).map
        (fun q => q.queue.map fun x => x.2.env.transaction.metadata) = some ["fifth", "second"] ∧
      ∃ q, calls listNode fullQueueCalls { queueLimit := 2, accountTxsLimit := 1 } = some q ∧ Consistent listNode q ∧
        q.queueLimit = 2 ∧ q.accountTxsLimit = 1 := by
  refine ⟨by decide +kernel, calls_consistent listNode 2 (by decide) fullQueueCalls ?_⟩
  intro e he e' he' hhash
  simp only [fullQueueCalls, filterMap_cons, Call.imported, filterMap_nil, mem_cons, not_mem_nil, or_false] at he he'
  rcases he with rfl | rfl | rfl | rfl | rfl <;> rcases he' with rfl | rfl | rfl | rfl | rfl <;>
    first | rfl | exact absurd hhash (by decide)

end TransactionQueue
end OpenSesame
