import OpenSesame.Theorems.Glue.QueueConsistency

/-! # The order of the transaction queue

`queue_` is ordered by `PriorityCompare`, which reads `account_nonce_`. -/

namespace OpenSesame
open Protocol Std TransactionQueue TreeMap

namespace TransactionQueue
variable {n : QueueNode} {q q' : TransactionQueue} {a : Address} {nonce : Int64}

def nonceOf (q : TransactionQueue) (a : Address) : Int64 := q.accountNonce.getD a 0

structure Found (q : TransactionQueue) : Prop where
  ids : (q.queue.map Prod.fst).Nodup
  fresh : ∀ x ∈ q.queue, x.1 < q.next
  found : ∀ x ∈ q.queue, ∃ m its, q.queueByAddressAndNonce[x.2.getSourceAddress]? = some m ∧
    m[x.2.getNonce]? = some its ∧ its.1 = x.1

theorem Found.unique (h : Found q) {x y : NodeId × QueuedTx} (hx : x ∈ q.queue) (hy : y ∈ q.queue)
    (hsource : x.2.getSourceAddress = y.2.getSourceAddress) (hnonce : x.2.getNonce = y.2.getNonce) : x = y := by
  obtain ⟨m, its, hm, hits, hid⟩ := h.found x hx
  obtain ⟨m', its', hm', hits', hid'⟩ := h.found y hy
  rw [hsource, hm'] at hm
  cases hm
  rw [hnonce, hits'] at hits
  cases hits
  exact List.inj_on_of_nodup_map h.ids hx hy (hid.symm.trans hid')

structure Remains (q q' : TransactionQueue) : Prop where
  found : Found q'
  sublist : q'.queue.Sublist q.queue
  nonces : ∀ x ∈ q'.queue, nonceOf q' x.2.getSourceAddress = nonceOf q x.2.getSourceAddress

theorem Remains.refl (h : Found q) : Remains q q := ⟨h, .refl _, fun _ _ => rfl⟩

theorem Remains.trans {q₂ : TransactionQueue} (h : Remains q q') (h' : Remains q' q₂) : Remains q q₂ :=
  ⟨h'.found, h'.sublist.trans h.sublist, fun x hx => (h'.nonces x hx).trans (h.nonces x (h'.sublist.subset hx))⟩

variable {m : TreeMap Address Int64}

theorem Found.remains_nonces (h : Found q)
    (hm : ∀ x ∈ q.queue, m.getD x.2.getSourceAddress 0 = nonceOf q x.2.getSourceAddress) :
    Remains q { q with accountNonce := m } :=
  ⟨⟨h.ids, h.fresh, h.found⟩, .refl _, hm⟩

theorem nonceOf_insert (q : TransactionQueue) (a b : Address) (nonce : Int64) :
    (q.accountNonce.insert a nonce).getD b 0 = if a = b then nonce else nonceOf q b := by
  rw [getD_insert]
  simp only [LawfulEqCmp.compare_eq_iff_eq]
  rfl

theorem getD_insertIfNew (m : TreeMap Address Int64) (a b : Address) : (m.insertIfNew a 0).getD b 0 = m.getD b 0 := by
  rw [TreeMap.getD_insertIfNew]
  split
  · rename_i hnew
    obtain ⟨hab, hnot⟩ := hnew
    obtain rfl := LawfulEqCmp.compare_eq_iff_eq.mp hab
    exact (TreeMap.getD_eq_fallback hnot).symm
  · rfl

/-! ### Taking nodes out -/

theorem mem_eraseNode {l : List (NodeId × QueuedTx)} {i : NodeId} {x : NodeId × QueuedTx} :
    x ∈ eraseNode i l ↔ x ∈ l ∧ x.1 ≠ i := by
  simp [eraseNode]

structure Removed (a : Address) (nonce : Int64) (q q' : TransactionQueue) : Prop extends Remains q q' where
  gone : ∀ x ∈ q'.queue, x.2.getSourceAddress = a → x.2.getNonce ≠ nonce

theorem Found.reopensesameIt (h : Found q) {r : QueuedTx × TransactionQueue}
    (hr : reopensesameIt n a nonce true q = some r) : Removed a nonce q r.2 := by
  obtain ⟨m, hm, hr⟩ := Option.bind_eq_some_iff.mp hr
  obtain ⟨its, hits, hr⟩ := Option.bind_eq_some_iff.mp hr
  obtain ⟨ptr, -, hr⟩ := Option.bind_eq_some_iff.mp hr
  have hsub : (eraseNode its.1 q.queue).Sublist q.queue := List.filter_sublist
  have hids : ((eraseNode its.1 q.queue).map Prod.fst).Nodup := h.ids.sublist (hsub.map _)
  have hgone : ∀ x ∈ eraseNode its.1 q.queue, x.2.getSourceAddress = a → x.2.getNonce ≠ nonce := by
    rintro x hx rfl rfl
    obtain ⟨hx, hne⟩ := mem_eraseNode.mp hx
    obtain ⟨m', its', hm', hits', hid⟩ := h.found x hx
    rw [hm] at hm'
    cases hm'
    rw [hits] at hits'
    cases hits'
    exact hne hid.symm
  -- the entries of the nodes that are left
  have hleft : ∀ x ∈ eraseNode its.1 q.queue, ∃ m' its', q.queueByAddressAndNonce[x.2.getSourceAddress]? = some m' ∧
      (x.2.getSourceAddress = a → m' = m ∧ (m.erase nonce)[x.2.getNonce]? = some its') ∧
      m'[x.2.getNonce]? = some its' ∧ its'.1 = x.1 := by
    intro x hx
    obtain ⟨m', its', hm', hits', hid⟩ := h.found x (hsub.subset hx)
    refine ⟨m', its', hm', ?_, hits', hid⟩
    intro hsource
    rw [hsource, hm] at hm'
    cases hm'
    refine ⟨rfl, ?_⟩
    rw [Table.erase_of_ne (hgone x hx hsource)]
    exact hits'
  dsimp only at hr
  split at hr
  · -- no node of the account is left
    rename_i hempty
    simp only [Bool.true_and] at hempty
    cases hr
    have hother : ∀ x ∈ eraseNode its.1 q.queue, x.2.getSourceAddress ≠ a := by
      intro x hx hsource
      obtain ⟨_, its', -, hself, -⟩ := hleft x hx
      have hmem := mem_iff_isSome_getElem?.mpr (Option.isSome_of_eq_some (hself hsource).2)
      exact isEmpty_iff_forall_not_mem.mp hempty _ hmem
    refine ⟨⟨⟨hids, fun x hx => h.fresh x (hsub.subset hx), fun x hx => ?_⟩, hsub, fun x hx => ?_⟩, hgone⟩
    · obtain ⟨m', its', hm', -, hits', hid⟩ := hleft x hx
      refine ⟨m', its', ?_, hits', hid⟩
      exact (Table.erase_of_ne (hother x hx)).trans hm'
    · unfold nonceOf
      rw [getD_eq_getD_getElem?, getD_eq_getD_getElem?, Table.erase_of_ne (hother x hx)]
  · cases hr
    refine ⟨⟨⟨hids, fun x hx => h.fresh x (hsub.subset hx), fun x hx => ?_⟩, hsub, fun _ _ => rfl⟩, hgone⟩
    obtain ⟨m', its', hm', hself, hits', hid⟩ := hleft x hx
    by_cases hsource : x.2.getSourceAddress = a
    · refine ⟨m.erase nonce, its', ?_, (hself hsource).2, hid⟩
      rw [hsource, getElem?_insert_self]
    · exact ⟨m', its', (Table.insert_of_ne hsource).trans hm', hits', hid⟩

theorem Found.reopensesame (h : Found q) {r : Option QueuedTx × TransactionQueue}
    (hr : reopensesame n a nonce q = some r) : Removed a nonce q r.2 := by
  -- without an entry there is no node
  have hstay : (∀ m, q.queueByAddressAndNonce[a]? = some m → m.contains nonce = false) → Removed a nonce q q := by
    intro hnone
    refine ⟨.refl h, ?_⟩
    rintro x hx rfl rfl
    obtain ⟨m, its, hm, hits, -⟩ := h.found x hx
    have hin := Table.contains_iff.mpr ⟨its, hits⟩
    rw [hnone m hm] at hin
    cases hin
  unfold TransactionQueue.reopensesame at hr
  rcases hm : q.queueByAddressAndNonce[a]? with - | m
  · simp only [hm] at hr
    cases hr
    refine hstay fun m hm' => ?_
    rw [hm] at hm'
    cases hm'
  · simp only [hm] at hr
    split at hr
    · obtain ⟨r', hr', rfl⟩ := Option.map_eq_some_iff.mp hr
      exact h.reopensesameIt hr'
    · rename_i hnot
      cases hr
      refine hstay fun m' hm' => ?_
      rw [hm] at hm'
      cases hm'
      exact Bool.not_eq_true _ ▸ hnot

variable {r : Bool × Result × TransactionQueue} {tx : QueuedTx} {result : Result}

theorem Found.evict (h : Found q) {fuel : ℕ} {inserted : Bool} (hr : evict n tx fuel inserted result q = some r) : Remains q r.2.2 := by
  induction fuel generalizing q inserted result with
  | zero => cases hr
  | succ fuel ih =>
    unfold TransactionQueue.evict at hr
    split at hr
    · rcases hlast : q.queue.getLast? with - | ⟨i, t⟩
      · simp only [hlast] at hr
        cases hr
      simp only [hlast] at hr
      rcases hone : TransactionQueue.reopensesame n t.getSourceAddress t.getNonce q with - | ⟨found, q₁⟩
      · simp only [hone] at hr
        cases hr
      simp only [hone] at hr
      have hremains := (h.reopensesame hone).toRemains
      split at hr
      · exact hremains.trans (ih hremains.found hr)
      · exact hremains.trans (ih hremains.found hr)
    · cases hr
      exact .refl h

theorem Found.timeoutLoop (h : Found q) {expireTime : Int64} {fuel : ℕ} {r : List QueuedTx × TransactionQueue}
    (hr : timeoutLoop n expireTime fuel q = some r) : Remains q r.2 := by
  induction fuel generalizing q r with
  | zero => cases hr
  | succ fuel ih =>
    unfold timeoutLoop at hr
    rcases htime : q.timeQueue with - | ⟨⟨i, t⟩, l⟩
    · simp only [htime] at hr
      cases hr
      exact .refl h
    simp only [htime] at hr
    split at hr
    · obtain ⟨⟨found, q₁⟩, hone, hr⟩ := Option.bind_eq_some_iff.mp hr
      obtain ⟨⟨txs, q₂⟩, hloop, hr⟩ := Option.bind_eq_some_iff.mp hr
      cases hr
      have hremains := (h.reopensesame hone).toRemains
      have hrest := ih hremains.found hloop
      exact hremains.trans hrest
    · cases hr
      exact .refl h

/-! ### `ReopensesameTxs` -/

def removeAll (n : QueueNode) (closeLedger : Bool) : List (Address × Int64) → TransactionQueue → Option TransactionQueue
  | [], q => some q
  | k :: l, q => do
    let (_, q) ← reopensesame n k.1 k.2 q
    removeAll n closeLedger l (raiseNonce closeLedger k.1 k.2 q)

/-- The account and the nonce of a transaction. -/
def envKey (e : TransactionEnv) : Address × Int64 := (e.transaction.sourceAddress, e.transaction.nonce)

theorem reopensesameTxs_eq (closeLedger : Bool) (set : List TransactionEnv) (q : TransactionQueue) :
    (reopensesameTxs n closeLedger set q).map Prod.snd = removeAll n closeLedger (set.map envKey) q := by
  induction set generalizing q with
  | nil => rfl
  | cons e l ih =>
    rw [List.map_cons, removeAll, reopensesameTxs, envKey]
    rcases hone : reopensesame n e.transaction.sourceAddress e.transaction.nonce q with - | ⟨found, q₁⟩
    · rfl
    simp only [Option.bind_eq_bind, Option.bind_some, ← ih]
    rcases reopensesameTxs n closeLedger l (raiseNonce closeLedger e.transaction.sourceAddress e.transaction.nonce q₁)
      with - | r
    · rfl
    · rfl

theorem reopensesameTxFrms_eq (closeLedger : Bool) (txs : List QueuedTx) (q : TransactionQueue) :
    reopensesameTxFrms n closeLedger txs q = removeAll n closeLedger (txs.map fun tx => envKey tx.env) q := by
  induction txs generalizing q with
  | nil => rfl
  | cons tx l ih =>
    rw [List.map_cons, removeAll, reopensesameTxFrms]
    refine congrArg _ (funext fun r => ?_)
    exact ih _

theorem queue_raiseNonce (closeLedger : Bool) (a : Address) (nonce : Int64) (q : TransactionQueue) :
    (raiseNonce closeLedger a nonce q).queue = q.queue := by
  unfold raiseNonce
  split
  · rfl
  · split <;> rfl

theorem Found.raiseNonce (h : Found q) (closeLedger : Bool) (a : Address) (nonce : Int64) :
    Found (raiseNonce closeLedger a nonce q) := by
  unfold TransactionQueue.raiseNonce
  split
  · exact h
  · split
    · exact ⟨h.ids, h.fresh, h.found⟩
    · exact h

variable {closeLedger : Bool}

theorem nonceOf_raiseNonce {b : Address} (h : closeLedger = true → a = b → nonce ≤ nonceOf q b) :
    nonceOf (raiseNonce closeLedger a nonce q) b = nonceOf q b := by
  unfold raiseNonce
  rcases hheld : q.accountNonce[a]? with - | held
  · rfl
  dsimp only
  split
  · rename_i hraise
    obtain ⟨hclose, hlt⟩ := Bool.and_eq_true_iff.mp hraise
    refine (nonceOf_insert q a b nonce).trans (if_neg fun hab => ?_)
    have hle := h hclose hab
    rw [nonceOf, ← hab, getD_eq_getD_getElem?, hheld, Option.getD_some] at hle
    exact absurd (of_decide_eq_true hlt) (Int64.not_lt.mpr hle)
  · rfl

theorem Found.removeAll (h : Found q) {l : List (Address × Int64)} (hr : removeAll n closeLedger l q = some q') :
    Found q' ∧ q'.queue.Sublist q.queue ∧ ∀ x ∈ q'.queue, (x.2.getSourceAddress, x.2.getNonce) ∉ l ∧
      ((closeLedger = true → ∀ k ∈ l, k.1 = x.2.getSourceAddress → k.2 ≤ nonceOf q k.1) →
        nonceOf q' x.2.getSourceAddress = nonceOf q x.2.getSourceAddress) := by
  induction l generalizing q with
  | nil =>
    cases hr
    exact ⟨h, .refl _, fun x _ => ⟨List.not_mem_nil, fun _ => rfl⟩⟩
  | cons k l ih =>
    obtain ⟨⟨found, q₁⟩, hone, hr⟩ := Option.bind_eq_some_iff.mp hr
    have hremoved := h.reopensesame hone
    obtain ⟨hfound, hsub, hleft⟩ := ih (hremoved.found.raiseNonce closeLedger k.1 k.2) hr
    rw [queue_raiseNonce] at hsub
    refine ⟨hfound, hsub.trans hremoved.sublist, fun x hx => ⟨?_, fun hlow => ?_⟩⟩
    · rw [List.mem_cons, not_or]
      refine ⟨?_, (hleft x hx).1⟩
      rintro rfl
      exact hremoved.gone x (hsub.subset hx) rfl rfl
    · have hkept := hremoved.nonces x (hsub.subset hx)
      have hsame : nonceOf (TransactionQueue.raiseNonce closeLedger k.1 k.2 q₁) x.2.getSourceAddress =
          nonceOf q x.2.getSourceAddress := by
        rw [nonceOf_raiseNonce, hkept]
        intro hclose hk
        have hle := hlow hclose k List.mem_cons_self hk
        rw [hk] at hle
        rw [hkept]
        exact hle
      rw [(hleft x hx).2, hsame]
      intro hclose k' hk' hsource
      rw [hsource, hsame, ← hsource]
      exact hlow hclose k' (List.mem_cons_of_mem _ hk') hsource

/-! ### Order -/

/-- How far a transaction is from the nonce of its account. -/
def height (m : TreeMap Address Int64) (tx : QueuedTx) : Int64 := tx.getNonce - m.getD tx.getSourceAddress 0

variable {x y : QueuedTx}

theorem priorityCompare_iff : priorityCompare m x y = true ↔ (height m x).toInt < (height m y).toInt ∨
      (height m x).toInt = (height m y).toInt ∧ y.getGasPrice.toInt < x.getGasPrice.toInt := by
  simp only [priorityCompare, Bool.or_eq_true, Bool.and_eq_true, decide_eq_true_eq, beq_iff_eq, gt_iff_lt,
    Int64.lt_iff_toInt_lt, Int64.toInt_inj]
  rfl

theorem priorityCompare_asymm (h : priorityCompare m x y = true) : priorityCompare m y x = false := by
  rw [← Bool.not_eq_true, priorityCompare_iff]
  rw [priorityCompare_iff] at h
  omega

theorem priorityCompare_cotrans {x z : QueuedTx} (y : QueuedTx)
    (h : priorityCompare m x z = true) : priorityCompare m x y = true ∨ priorityCompare m y z = true := by
  rw [priorityCompare_iff, priorityCompare_iff]
  rw [priorityCompare_iff] at h
  omega

/-- The tree puts a new node behind all those it is not ahead of, as long as its nodes are in order. -/
def FindsPlace (n : QueueNode) : Prop :=
  ∀ (less : QueuedTx → QueuedTx → Bool) (l : List QueuedTx) (tx : QueuedTx),
    (∀ x y, less x y = true → less y x = false) →
    (∀ x y z, less x z = true → less x y = true ∨ less y z = true) →
    l.Pairwise (fun x y => less y x = false) → (n.search less l tx).2 = (l.takeWhile fun x => !less tx x).length

structure Arranged (q : TransactionQueue) : Prop extends Found q where
  order : q.queue.Pairwise fun x y => priorityCompare q.accountNonce y.2 x.2 = false

theorem priorityCompare_congr {m m' : TreeMap Address Int64}
    (hx : m'.getD x.getSourceAddress 0 = m.getD x.getSourceAddress 0)
    (hy : m'.getD y.getSourceAddress 0 = m.getD y.getSourceAddress 0) :
    priorityCompare m' x y = priorityCompare m x y := by
  rw [priorityCompare, priorityCompare, hx, hy]

theorem Arranged.remains (h : Arranged q) (hr : Remains q q') : Arranged q' := by
  refine ⟨hr.found, (h.order.sublist hr.sublist).imp_of_mem fun {x y} hx hy hxy => ?_⟩
  rw [priorityCompare_congr (hr.nonces y hy) (hr.nonces x hx)]
  exact hxy

theorem arranged_empty (queueLimit accountTxsLimit : ℕ) : Arranged { queueLimit, accountTxsLimit } :=
  ⟨⟨List.nodup_nil, nofun, nofun⟩, .nil⟩

/-! ### `Insert` -/

theorem getD_compared (compared : List QueuedTx) (tx : QueuedTx) (m : TreeMap Address Int64) (b : Address) :
    (compared.foldl (fun m x => touchNonces tx x m) m).getD b 0 = m.getD b 0 := by
  induction compared generalizing m with
  | nil => rfl
  | cons x l ih => rw [List.foldl_cons, ih, touchNonces, getD_insertIfNew, getD_insertIfNew]

theorem pairwise_place (less : QueuedTx → QueuedTx → Bool) (hasymm : ∀ x y, less x y = true → less y x = false)
    (hcotrans : ∀ x y z, less x z = true → less x y = true ∨ less y z = true) (tx : QueuedTx) :
    ∀ {l : List QueuedTx}, l.Pairwise (fun x y => less y x = false) →
      (l.take (l.takeWhile fun x => !less tx x).length ++ tx :: l.drop (l.takeWhile fun x => !less tx x).length).Pairwise
        fun x y => less y x = false
  | [], _ => List.pairwise_singleton ..
  | x :: l, h => by
    rw [List.pairwise_cons] at h
    rcases hx : less tx x with - | -
    · rw [List.takeWhile_cons_of_pos (by simp [hx]), List.length_cons, List.take_succ_cons, List.drop_succ_cons,
        List.cons_append, List.pairwise_cons]
      refine ⟨fun y hy => ?_, pairwise_place less hasymm hcotrans tx h.2⟩
      rcases List.mem_append.mp hy with hy | hy
      · exact h.1 y (List.mem_of_mem_take hy)
      · rcases List.mem_cons.mp hy with rfl | hy
        · exact hx
        · exact h.1 y (List.mem_of_mem_drop hy)
    · rw [List.takeWhile_cons_of_neg (by simp [hx])]
      refine List.pairwise_cons.mpr ⟨fun y hy => ?_, List.pairwise_cons.mpr h⟩
      rcases List.mem_cons.mp hy with rfl | hy
      · exact hasymm _ _ hx
      · -- `y` ahead of the new one would be ahead of `x`
        by_contra hyx
        rcases hcotrans y x tx (Bool.not_eq_false _ ▸ hyx) with hlt | hlt
        · rw [h.1 y hy] at hlt
          cases hlt
        · rw [hasymm _ _ hx] at hlt
          cases hlt

theorem map_placeNode (place : ℕ) (node : NodeId × QueuedTx) (l : List (NodeId × QueuedTx)) :
    (placeNode place node l).map Prod.snd = (l.map Prod.snd).take place ++ node.2 :: (l.map Prod.snd).drop place := by
  rw [placeNode, List.map_append, List.map_cons, List.map_take, List.map_drop]

def Free (tx : QueuedTx) (q : TransactionQueue) : Prop :=
  ∀ x ∈ q.queue, x.2.getSourceAddress = tx.getSourceAddress → x.2.getNonce ≠ tx.getNonce

theorem insert_perm (tx : QueuedTx) (q : TransactionQueue) : (insert n tx q).queue.Perm ((q.next, tx) :: q.queue) :=
  placeNode_perm (.refl q.queue) _ (q.next, tx)

theorem Found.insert (h : Found q) (hfree : Free tx q) : Found (TransactionQueue.insert n tx q) := by
  have hmem : ∀ x, x ∈ (TransactionQueue.insert n tx q).queue ↔ x = (q.next, tx) ∨ x ∈ q.queue := fun x =>
    (insert_perm tx q).mem_iff.trans List.mem_cons
  refine ⟨?_, fun x hx => ?_, fun x hx => ?_⟩
  · rw [((insert_perm tx q).map Prod.fst).nodup_iff, List.map_cons, List.nodup_cons]
    refine ⟨fun hnext => ?_, h.ids⟩
    obtain ⟨x, hx, heq⟩ := List.mem_map.mp hnext
    exact (h.fresh x hx).ne heq
  · change x.1 < q.next + 2
    rcases (hmem x).mp hx with rfl | hx
    · exact Nat.lt_add_of_pos_right two_pos
    · exact Nat.lt_add_right 2 (h.fresh x hx)
  · rcases (hmem x).mp hx with rfl | hx
    · exact ⟨_, _, TreeMap.getElem?_insert_self, TreeMap.getElem?_insert_self, rfl⟩
    · obtain ⟨m, its, hm, hits, hid⟩ := h.found x hx
      by_cases hsource : x.2.getSourceAddress = tx.getSourceAddress
      · refine ⟨(q.queueByAddressAndNonce.getD tx.getSourceAddress ∅).insert tx.getNonce (q.next, q.next + 1), its, ?_,
          ?_, hid⟩
        · rw [hsource]
          exact TreeMap.getElem?_insert_self
        · rw [Table.insert_of_ne (hfree x hx hsource), TreeMap.getD_eq_getD_getElem?, ← hsource, hm]
          exact hits
      · exact ⟨m, its, (Table.insert_of_ne hsource).trans hm, hits, hid⟩

theorem Arranged.insert (hsearch : FindsPlace n) (h : Arranged q) (hfree : Free tx q) : Arranged (insert n tx q) := by
  have hplace := hsearch (priorityCompare q.accountNonce) (q.queue.map Prod.snd) tx
    (fun _ _ => priorityCompare_asymm) (fun _ y _ => priorityCompare_cotrans y) (List.pairwise_map.mpr h.order)
  refine ⟨h.toFound.insert hfree, ?_⟩
  change (placeNode _ _ q.queue).Pairwise _
  rw [hplace]
  have hsorted := pairwise_place (priorityCompare q.accountNonce) (fun _ _ => priorityCompare_asymm)
    (fun _ y _ => priorityCompare_cotrans y) tx (List.pairwise_map.mpr h.order)
  rw [← map_placeNode _ (q.next, tx), List.pairwise_map] at hsorted
  refine hsorted.imp fun {x y} hxy => ?_
  rw [← hxy]
  exact priorityCompare_congr (getD_compared ..) (getD_compared ..)

/-! ### `Import` -/

def setNonce (source : Address) (nonce : Int64) (q : TransactionQueue) : TransactionQueue :=
  { q with accountNonce := q.accountNonce.insert source nonce }

theorem Found.setNonce (h : Found q) (source : Address) (nonce : Int64) : Found (setNonce source nonce q) :=
  ⟨h.ids, h.fresh, h.found⟩

theorem Found.remains_setNonce (h : Found q) {source : Address}
    (hsame : ∀ x ∈ q.queue, x.2.getSourceAddress = source → nonceOf q source = nonce) :
    Remains q (TransactionQueue.setNonce source nonce q) := by
  refine h.remains_nonces fun x hx => ?_
  rw [nonceOf_insert]
  split
  · rename_i hsource
    rw [← hsource]
    exact (hsame x hx hsource.symm).symm
  · rfl

theorem Found.importNew_cases (h : Found q) (hfree : Free tx q) {replace : Bool} {accountTxsSize : ℕ}
    (hr : importNew n tx replace accountTxsSize result q = some r) :
    q = r.2.2 ∨ Remains (TransactionQueue.insert n tx q) r.2.2 := by
  -- the last check changes the answer only
  have hend : ∀ {inserted : Bool} {result' : Result} {q₁ : TransactionQueue},
      (if accountTxsSize ≥ q₁.accountTxsLimit then
        some (false, result'.set .txInsertQueueFail (exceedsDesc n tx), q₁) else some (inserted, result', q₁)) = some r →
      q₁ = r.2.2 := by
    intro inserted result' q₁ hr
    split at hr
    · cases hr
      rfl
    · cases hr
      rfl
  unfold TransactionQueue.importNew at hr
  dsimp only at hr
  split at hr
  · obtain ⟨⟨inserted, result', q₁⟩, hone, hr⟩ := Option.bind_eq_some_iff.mp hr
    obtain rfl := hend hr
    have hremains := (h.insert hfree).evict hone
    exact .inr hremains
  · exact .inl (hend hr)

variable {curSourceNonce : Int64}

theorem Found.importTx_cases (h : Found q) (hr : importTx n tx curSourceNonce result q = some r) :
    let set := TransactionQueue.setNonce tx.getSourceAddress curSourceNonce
    set q = r.2.2 ∨ ∃ q₁, (q₁ = set q ∨ ∃ q₀, Removed tx.getSourceAddress tx.getNonce (set q) q₀ ∧ q₁ = set q₀) ∧
      Found q₁ ∧ Free tx q₁ ∧ (q₁ = r.2.2 ∨ Remains (TransactionQueue.insert n tx q₁) r.2.2) := by
  intro set
  have h₁ : Found (set q) := h.setNonce ..
  unfold TransactionQueue.importTx at hr
  dsimp only at hr
  -- without an entry there is no node of the account and the nonce
  have hend : (∀ m, q.queueByAddressAndNonce[tx.getSourceAddress]? = some m → m[tx.getNonce]? = none) →
      ∀ {size : ℕ}, importNew n tx false size result (set q) = some r →
      ∃ q₁, (q₁ = set q ∨ ∃ q₀, Removed tx.getSourceAddress tx.getNonce (set q) q₀ ∧ q₁ = set q₀) ∧ Found q₁ ∧
        Free tx q₁ ∧ (q₁ = r.2.2 ∨ Remains (TransactionQueue.insert n tx q₁) r.2.2) := by
    intro hnone size hr
    have hfree : Free tx (set q) := by
      intro x hx hsource hnonce
      obtain ⟨m, its, hm, hits, -⟩ := h.found x hx
      rw [hsource] at hm
      rw [hnonce, hnone m hm] at hits
      cases hits
    exact ⟨set q, .inl rfl, h₁, hfree, h₁.importNew_cases hfree hr⟩
  rcases hm : q.queueByAddressAndNonce[tx.getSourceAddress]? with - | m
  · simp only [hm] at hr
    refine .inr (hend (fun m hm' => ?_) hr)
    rw [hm] at hm'
    cases hm'
  simp only [hm] at hr
  rcases hits : m[tx.getNonce]? with - | its
  · simp only [hits] at hr
    refine .inr (hend (fun m' hm' => ?_) hr)
    rw [hm] at hm'
    cases hm'
    exact hits
  simp only [hits] at hr
  obtain ⟨held, -, hr⟩ := Option.bind_eq_some_iff.mp hr
  split at hr
  · obtain ⟨⟨ptr, q₀⟩, hone, hr⟩ := Option.bind_eq_some_iff.mp hr
    have hremoved := h₁.reopensesameIt hone
    have hfree : Free tx (set q₀) := hremoved.gone
    have h₀ : Found (set q₀) := hremoved.found.setNonce ..
    exact .inr ⟨set q₀, .inr ⟨q₀, hremoved, rfl⟩, h₀, hfree, h₀.importNew_cases hfree hr⟩
  · cases hr
    exact .inl rfl

theorem Found.importTx (h : Found q) (hr : importTx n tx curSourceNonce result q = some r) : Found r.2.2 := by
  rcases h.importTx_cases hr with hsame | ⟨q₁, -, h₁, -, rfl | hremains⟩
  · exact hsame ▸ h.setNonce ..
  · exact h₁
  · exact hremains.found

theorem Arranged.importTx (hsearch : FindsPlace n) (h : Arranged q)
    (hsteady : ∀ x ∈ q.queue, x.2.getSourceAddress = tx.getSourceAddress →
      nonceOf q tx.getSourceAddress = curSourceNonce)
    (hr : importTx n tx curSourceNonce result q = some r) : Arranged r.2.2 := by
  have hset : Arranged (TransactionQueue.setNonce tx.getSourceAddress curSourceNonce q) :=
    h.remains (h.toFound.remains_setNonce hsteady)
  rcases h.toFound.importTx_cases hr with hsame | ⟨q₁, hq₁, -, hfree, hend⟩
  · exact hsame ▸ hset
  have h₁ : Arranged q₁ := by
    rcases hq₁ with rfl | ⟨q₀, hremoved, rfl⟩
    · exact hset
    · have h₀ := hset.remains hremoved.toRemains
      refine h₀.remains (h₀.toFound.remains_setNonce fun x hx hsource => ?_)
      have hkept := hremoved.nonces x hx
      rw [hsource] at hkept
      rw [hkept, nonceOf, TransactionQueue.setNonce, nonceOf_insert, if_pos rfl]
  rcases hend with rfl | hremains
  · exact h₁
  · exact (h₁.insert hsearch hfree).remains hremains

/-! ### Calls -/

theorem getD_lastSeq (b c : Address) (st : Top) : (lastSeq b st).2.accountNonce.getD c 0 = st.accountNonce.getD c 0 := by
  unfold lastSeq
  split
  · rfl
  · exact getD_insertIfNew ..

theorem getD_topLoop (limit : ℕ) (l : List (NodeId × QueuedTx)) (st : Top) (b : Address) :
    (topLoop n limit l st).accountNonce.getD b 0 = st.accountNonce.getD b 0 := by
  induction l generalizing st with
  | nil => rfl
  | cons x l ih =>
    unfold topLoop
    split
    · dsimp only
      split
      · rfl
      split
      · exact ih _
      split
      · rw [ih]
        exact getD_lastSeq ..
      · rw [ih]
        exact getD_lastSeq ..
    · rfl

/-- No nonce of a closed ledger is above that of an account which keeps a node. -/
def SteadyKeys (keys : List (Address × Int64)) (q : TransactionQueue) : Prop :=
  ∀ x ∈ q.queue, ∀ k ∈ keys, k.1 = x.2.getSourceAddress →
    (x.2.getSourceAddress, x.2.getNonce) ∈ keys ∨ k.2 ≤ nonceOf q k.1

/-- The call does not change the nonce of an account that keeps a node. -/
def Steady (q : TransactionQueue) : Call → Prop
  | .importTx tx curSourceNonce _ => ∀ x ∈ q.queue, x.2.getSourceAddress = tx.getSourceAddress →
      nonceOf q tx.getSourceAddress = curSourceNonce
  | .reopensesameTxs set closeLedger => closeLedger = true → SteadyKeys (set.map envKey) q
  | .reopensesameTxFrms txs closeLedger => closeLedger = true → SteadyKeys (txs.map fun tx => envKey tx.env) q
  | _ => True

def Steadily (n : QueueNode) : List Call → TransactionQueue → Prop
  | [], _ => True
  | c :: l, q => Steady q c ∧ ∀ q', call n c q = some q' → Steadily n l q'

theorem Arranged.removeAll (h : Arranged q) {keys : List (Address × Int64)}
    (hsteady : closeLedger = true → SteadyKeys keys q) (hr : removeAll n closeLedger keys q = some q') :
    Arranged q' := by
  obtain ⟨hfound, hsub, hleft⟩ := h.toFound.removeAll hr
  refine h.remains ⟨hfound, hsub, fun x hx => ?_⟩
  obtain ⟨hgone, hkept⟩ := hleft x hx
  refine hkept fun hclose k hk hsource => ?_
  rcases hsteady hclose x (hsub.subset hx) k hk hsource with hmem | hle
  · exact absurd hmem hgone
  · exact hle

theorem Found.call (h : Found q) {c : Call} (hr : call n c q = some q') : Found q' := by
  cases c with
  | importTx tx curSourceNonce result =>
    obtain ⟨r, hone, rfl⟩ := Option.map_eq_some_iff.mp hr
    exact h.importTx hone
  | topTransaction limit =>
    cases hr
    exact ⟨h.ids, h.fresh, h.found⟩
  | reopensesameTxs set closeLedger =>
    rw [TransactionQueue.call, reopensesameTxs_eq] at hr
    exact (h.removeAll hr).1
  | reopensesameTxFrms txs closeLedger =>
    rw [TransactionQueue.call, reopensesameTxFrms_eq] at hr
    exact (h.removeAll hr).1
  | safeReopensesameTx address nonce =>
    obtain ⟨r, hone, rfl⟩ := Option.map_eq_some_iff.mp hr
    exact (h.reopensesame hone).found
  | checkTimeoutAndDel currentTime =>
    obtain ⟨r, hone, rfl⟩ := Option.map_eq_some_iff.mp hr
    exact (h.timeoutLoop hone).found

theorem Found.calls {l : List Call} (h : Found q) (hr : calls n l q = some q') : Found q' := by
  induction l generalizing q with
  | nil =>
    cases hr
    exact h
  | cons c l ih =>
    obtain ⟨q₁, hone, hr⟩ := Option.bind_eq_some_iff.mp hr
    exact ih (h.call hone) hr

theorem Arranged.call (hsearch : FindsPlace n) (h : Arranged q) {c : Call} (hsteady : Steady q c)
    (hr : call n c q = some q') : Arranged q' := by
  cases c with
  | importTx tx curSourceNonce result =>
    obtain ⟨r, hone, rfl⟩ := Option.map_eq_some_iff.mp hr
    exact h.importTx hsearch hsteady hone
  | topTransaction limit =>
    cases hr
    exact h.remains (h.toFound.remains_nonces fun x _ => getD_topLoop ..)
  | reopensesameTxs set closeLedger =>
    rw [TransactionQueue.call, reopensesameTxs_eq] at hr
    exact h.removeAll hsteady hr
  | reopensesameTxFrms txs closeLedger =>
    rw [TransactionQueue.call, reopensesameTxFrms_eq] at hr
    exact h.removeAll hsteady hr
  | safeReopensesameTx address nonce =>
    obtain ⟨r, hone, rfl⟩ := Option.map_eq_some_iff.mp hr
    exact h.remains (h.toFound.reopensesame hone).toRemains
  | checkTimeoutAndDel currentTime =>
    obtain ⟨r, hone, rfl⟩ := Option.map_eq_some_iff.mp hr
    exact h.remains (h.toFound.timeoutLoop hone)

theorem Arranged.calls (hsearch : FindsPlace n) {l : List Call} (h : Arranged q) (hsteady : Steadily n l q)
    (hr : calls n l q = some q') : Arranged q' := by
  induction l generalizing q with
  | nil =>
    cases hr
    exact h
  | cons c l ih =>
    obtain ⟨q₁, hone, hr⟩ := Option.bind_eq_some_iff.mp hr
    exact ih (h.call hsearch hsteady.1 hone) (hsteady.2 q₁ hone) hr

/-- The order of the queue: by `PriorityCompare`, and by nonce within an account, where no nonce is negative. -/
structure InOrder (q : TransactionQueue) : Prop where
  order : q.queue.Pairwise fun x y => priorityCompare q.accountNonce y.2 x.2 = false
  account : q.queue.Pairwise fun x y => x.2.getSourceAddress = y.2.getSourceAddress →
    0 ≤ nonceOf q x.2.getSourceAddress → 0 ≤ x.2.getNonce → 0 ≤ y.2.getNonce → x.2.getNonce < y.2.getNonce

theorem height_toInt (h : 0 ≤ m.getD tx.getSourceAddress 0)
    (htx : 0 ≤ tx.getNonce) : (height m tx).toInt = tx.getNonce.toInt - (m.getD tx.getSourceAddress 0).toInt := by
  rw [Int64.le_iff_toInt_le, Int64.toInt_zero] at h htx
  have hlt := (m.getD tx.getSourceAddress 0).toInt_lt
  have hlt' := tx.getNonce.toInt_lt
  rw [height, Int64.toInt_sub, SafeInt.bmod_of_range (by omega) (by omega)]

theorem Arranged.inOrder (h : Arranged q) : InOrder q := by
  refine ⟨h.order, (h.order.and (List.pairwise_map.mp h.ids)).imp_of_mem ?_⟩
  rintro x y hx hy ⟨hxy, hne⟩ hsource hnonce hposx hposy
  rw [← Bool.not_eq_true, priorityCompare_iff] at hxy
  have hheightx : (height q.accountNonce x.2).toInt = _ := height_toInt hnonce hposx
  have hheighty : (height q.accountNonce y.2).toInt = _ := height_toInt (hsource ▸ hnonce) hposy
  rw [hheightx, hheighty, hsource] at hxy
  have hdiff : x.2.getNonce.toInt ≠ y.2.getNonce.toInt := fun heq =>
    hne (congrArg Prod.fst (h.toFound.unique hx hy hsource (Int64.toInt_inj.mp heq)))
  rw [Int64.lt_iff_toInt_lt]
  omega

/-- After any calls, none of which changes the nonce of an account that keeps a transaction, the queue is in order. -/
theorem calls_inOrder (n : QueueNode) (hsearch : FindsPlace n) (queueLimit accountTxsLimit : ℕ) (l : List Call)
    (hsteady : Steadily n l { queueLimit, accountTxsLimit })
    (hq : calls n l { queueLimit, accountTxsLimit } = some q) : InOrder q :=
  ((arranged_empty queueLimit accountTxsLimit).calls hsearch hsteady hq).inOrder

instance : ∀ c, Decidable (Steady q c)
  | .importTx .. => inferInstanceAs (Decidable (∀ _ ∈ _, _ → _))
  | .topTransaction _ => .isTrue trivial
  | .reopensesameTxs .. => inferInstanceAs (Decidable (_ → ∀ _ ∈ _, ∀ _ ∈ _, _ → _ ∨ _))
  | .reopensesameTxFrms .. => inferInstanceAs (Decidable (_ → ∀ _ ∈ _, ∀ _ ∈ _, _ → _ ∨ _))
  | .safeReopensesameTx .. => .isTrue trivial
  | .checkTimeoutAndDel _ => .isTrue trivial

instance decidableSteadily (n : QueueNode) : ∀ l q, Decidable (Steadily n l q)
  | [], _ => .isTrue trivial
  | c :: l, q =>
    have : Decidable (∀ q', call n c q = some q' → Steadily n l q') :=
      match call n c q with
      | none => .isTrue nofun
      | some q₁ =>
        have := decidableSteadily n l q₁
        decidable_of_iff (Steadily n l q₁) ⟨fun h _ heq => Option.some.inj heq ▸ h, fun h => h q₁ rfl⟩
    inferInstanceAs (Decidable (Steady q c ∧ _))

/-- Two accounts; the ledger that closes takes all transactions of one of them. -/
def steadyCalls : List Call :=
  [.importTx (namedTx "a" 1 10 "a1") 0 {}, .importTx (namedTx "b" 4 1 "b4") 2 {},
    .importTx (namedTx "b" 3 9 "b3") 2 {}, .topTransaction 1,
    .reopensesameTxs [(namedTx "a" 1 10 "a1").env] true, .importTx (namedTx "a" 2 5 "a2") 1 {}]

theorem calls_inOrder_steady : (calls listNode steadyCalls { queueLimit := 10, accountTxsLimit := 5 }).map
        (fun q => q.queue.map fun x => x.2.env.transaction.metadata) = some ["b3", "a2", "b4"] ∧
      ∃ q, calls listNode steadyCalls { queueLimit := 10, accountTxsLimit := 5 } = some q ∧ InOrder q := by
  have hsome : (calls listNode steadyCalls { queueLimit := 10, accountTxsLimit := 5 }).isSome = true := by
    decide +kernel
  obtain ⟨q, hq⟩ := Option.isSome_iff_exists.mp hsome
  refine ⟨by decide +kernel, q, hq, ?_⟩
  exact calls_inOrder listNode (fun _ _ _ _ _ _ => rfl) 10 5 steadyCalls (by decide +kernel) hq

/-- A ledger closes with the first transaction of an account whose second one waits behind that of another. -/
def overtakenCalls : List Call :=
  [.importTx (namedTx "a" 1 10 "a1") 0 {}, .importTx (namedTx "a" 2 1 "a2") 0 {},
    .importTx (namedTx "c" 2 9 "c2") 0 {}, .reopensesameTxs [(namedTx "a" 1 10 "a1").env] true]

/-- The second transaction of the account is now the next one, and stands last. -/
theorem calls_out_of_order : (calls listNode overtakenCalls { queueLimit := 10, accountTxsLimit := 5 }).map
        (fun q => q.queue.map fun x => (x.2.env.transaction.metadata, height q.accountNonce x.2)) =
      some [("c2", 2), ("a2", 1)] ∧
      ∃ q, calls listNode overtakenCalls { queueLimit := 10, accountTxsLimit := 5 } = some q ∧
        ¬ q.queue.Pairwise (fun x y => priorityCompare q.accountNonce y.2 x.2 = false) := by
  have hany : (calls listNode overtakenCalls { queueLimit := 10, accountTxsLimit := 5 }).any
      (fun q => !decide (q.queue.Pairwise fun x y => priorityCompare q.accountNonce y.2 x.2 = false)) = true := by
    decide +kernel
  refine ⟨by decide +kernel, ?_⟩
  obtain ⟨q, hq, hnot⟩ := (Option.any_eq_true ..).mp hany
  exact ⟨q, hq, by simpa using hnot⟩

end TransactionQueue
end OpenSesame
