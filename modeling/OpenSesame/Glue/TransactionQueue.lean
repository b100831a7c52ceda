import Mathlib.Data.Finset.Card
import OpenSesame.Ledger.OperationCheck

/-! # `glue/transaction_queue.cpp`: the transactions that wait for a ledger

The two multisets are lists of nodes in the order of the tree. An iterator is the number of its node, so that it stays
valid while other nodes come and go; a function that ends in `none` is one that uses an iterator to a node that is
gone, or a loop that was not given enough fuel. -/

namespace OpenSesame
open Protocol Std

structure QueuedTx where
  env : TransactionEnv
  incomingTime : Int64

namespace QueuedTx
variable (tx : QueuedTx)

def getSourceAddress : Address := tx.env.transaction.sourceAddress

def getNonce : Int64 := tx.env.transaction.nonce

def getGasPrice : Int64 := tx.env.transaction.gasPrice

def checkTimeout (expireTime : Int64) : Bool := tx.incomingTime < expireTime

end QueuedTx

structure QueueNode where
  contentHash : TransactionEnv → String
  binToHexString : String → String
  /-- Whether `price - p >= p * 0.1`, where the product is a `double`. -/
  outbids : (price p : Int64) → Bool
  /-- `ByteSize` of a transaction and of a set of them. -/
  byteSize : TransactionEnv → ℕ
  setByteSize : List TransactionEnv → ℕ
  /-- How the tree of `queue_` finds the place of a new node: the nodes it is compared with, and the place. The order
  depends on `account_nonce_`, so that after a change of it the place depends on the form of the tree. -/
  search : (QueuedTx → QueuedTx → Bool) → List QueuedTx → QueuedTx → List QueuedTx × ℕ
  search_mem : ∀ less l tx, ∀ x ∈ (search less l tx).1, x ∈ l

abbrev NodeId := ℕ

structure TransactionQueue where
  queueLimit : ℕ
  accountTxsLimit : ℕ
  queue : List (NodeId × QueuedTx) := []
  timeQueue : List (NodeId × QueuedTx) := []
  queueByAddressAndNonce : TreeMap Address (TreeMap Int64 (NodeId × NodeId)) := ∅
  queueByHash : TreeMap String QueuedTx := ∅
  accountNonce : TreeMap Address Int64 := ∅
  next : NodeId := 0

namespace TransactionQueue

def queueTransactionTimeout : Int64 := 600 * 1000000

def txsetLimitSize : ℕ := 16 * 1024 * 1024

def deref (l : List (NodeId × QueuedTx)) (i : NodeId) : Option QueuedTx :=
  (l.find? fun x => x.1 == i).map Prod.snd

def eraseNode (i : NodeId) (l : List (NodeId × QueuedTx)) : List (NodeId × QueuedTx) :=
  l.filter fun x => x.1 != i

def placeNode (place : ℕ) (node : NodeId × QueuedTx) (l : List (NodeId × QueuedTx)) : List (NodeId × QueuedTx) :=
  l.take place ++ node :: l.drop place

/-- `PriorityCompare`, as far as it reads: by height of the nonce and by fee. -/
def priorityCompare (accountNonce : TreeMap Address Int64) (first second : QueuedTx) : Bool :=
  let height1 := first.getNonce - accountNonce.getD first.getSourceAddress 0
  let height2 := second.getNonce - accountNonce.getD second.getSourceAddress 0
  height1 < height2 || (height1 == height2 && first.getGasPrice > second.getGasPrice)

/-- `PriorityCompare`, as far as it writes: `account_nonce_[]` makes an entry where there is none. -/
def touchNonces (first second : QueuedTx) (accountNonce : TreeMap Address Int64) : TreeMap Address Int64 :=
  (accountNonce.insertIfNew first.getSourceAddress 0).insertIfNew second.getSourceAddress 0

/-- The place after all that came no later: `TimePriorityCompare`. -/
def timePlace (tx : QueuedTx) (l : List (NodeId × QueuedTx)) : ℕ :=
  (l.takeWhile fun x => !decide (tx.incomingTime < x.2.incomingTime)).length

variable (n : QueueNode)

/-- `queue_.emplace` and `time_queue_.emplace`. -/
def emplace (tx : QueuedTx) (q : TransactionQueue) : (NodeId × NodeId) × TransactionQueue :=
  let (compared, place) := n.search (priorityCompare q.accountNonce) (q.queue.map Prod.snd) tx
  ((q.next, q.next + 1), { q with
      queue := placeNode place (q.next, tx) q.queue
      timeQueue := placeNode (timePlace tx q.timeQueue) (q.next + 1, tx) q.timeQueue
      accountNonce := compared.foldl (fun m x => touchNonces tx x m) q.accountNonce
      next := q.next + 2 })

/-- `Reopensesame` of the transaction two iterators refer to: the one of the account and the one of the nonce. -/
def reopensesameIt (address : Address) (nonce : Int64) (delEmpty : Bool) (q : TransactionQueue) :
    Option (QueuedTx × TransactionQueue) := do
  let account ← q.queueByAddressAndNonce[address]?
  let its ← account[nonce]?
  let ptr ← deref q.queue its.1
  let account := account.erase nonce
  let erased := { q with
    queue := eraseNode its.1 q.queue
    timeQueue := eraseNode its.2 q.timeQueue
    queueByHash := q.queueByHash.erase (n.contentHash ptr.env) }
  if delEmpty && account.isEmpty then
    return (ptr, { erased with
      accountNonce := q.accountNonce.erase address
      queueByAddressAndNonce := q.queueByAddressAndNonce.erase address })
  else
    return (ptr, { erased with queueByAddressAndNonce := q.queueByAddressAndNonce.insert address account })

/-- `Reopensesame` of the transaction of an account and a nonce, if there is one. -/
def reopensesame (address : Address) (nonce : Int64) (q : TransactionQueue) :
    Option (Option QueuedTx × TransactionQueue) :=
  match q.queueByAddressAndNonce[address]? with
  | none => some (none, q)
  | some account =>
    if account.contains nonce then (reopensesameIt n address nonce true q).map fun r => (some r.1, r.2)
    else some (none, q)

def insert (tx : QueuedTx) (q : TransactionQueue) : TransactionQueue :=
  let (its, q) := emplace n tx q
  { q with
    queueByAddressAndNonce := q.queueByAddressAndNonce.insert tx.getSourceAddress
      ((q.queueByAddressAndNonce.getD tx.getSourceAddress ∅).insert tx.getNonce its)
    queueByHash := q.queueByHash.insert (n.contentHash tx.env) tx }

/-! ### `Import` -/

/-- The part of the descriptions that says which transaction is meant. -/
def describe (tx : QueuedTx) : String :=
  s!"transaction hash({n.binToHexString (n.contentHash tx.env)}), account address({tx.getSourceAddress}), " ++
    s!"gas_price({tx.getGasPrice.toInt}), nonce({tx.getNonce.toInt})."

def lowFeeDesc (tx : QueuedTx) : String :=
  "Drop the transaction to insert queue because of low fee: " ++ describe n tx

def deletedDesc (tx : QueuedTx) : String :=
  "Delete the transaction at the end of the queue: " ++ describe n tx

def exceedsDesc (tx : QueuedTx) : String :=
  "The transaction exceeds the cache limit for each account in the queue: " ++ describe n tx

/-- The loop that takes transactions from the end of the queue while there are too many. -/
def evict (tx : QueuedTx) : ℕ → Bool → Result → TransactionQueue → Option (Bool × Result × TransactionQueue)
  | 0, _, _, _ => none
  | fuel + 1, inserted, result, q =>
    if q.queue.length > q.queueLimit then
      match q.queue.getLast? with
      | none => none
      | some (_, t) =>
        match reopensesame n t.getSourceAddress t.getNonce q with
        | none => none
        | some (_, q) =>
          if n.contentHash t.env == n.contentHash tx.env then
            evict tx fuel false (result.set .txInsertQueueFail (deletedDesc n t)) q
          else evict tx fuel inserted result q
    else some (inserted, result, q)

/-- The end of `Import`, once a transaction that is replaced is gone. -/
def importNew (tx : QueuedTx) (replace : Bool) (accountTxsSize : ℕ) (result : Result) (q : TransactionQueue) :
    Option (Bool × Result × TransactionQueue) := do
  let (inserted, result, q) ← if replace || accountTxsSize < q.accountTxsLimit then
      let q := insert n tx q
      evict n tx (q.queue.length + 1) true result q
    else some (false, result, q)
  if accountTxsSize ≥ q.accountTxsLimit then
    return (false, result.set .txInsertQueueFail (exceedsDesc n tx), q)
  else return (inserted, result, q)

def importTx (tx : QueuedTx) (curSourceNonce : Int64) (result : Result) (q : TransactionQueue) :
    Option (Bool × Result × TransactionQueue) := do
  let source := tx.getSourceAddress
  let q := { q with accountNonce := q.accountNonce.insert source curSourceNonce }
  match q.queueByAddressAndNonce[source]? with
  | none => importNew n tx false 0 result q
  | some account =>
    match account[tx.getNonce]? with
    | none => importNew n tx false account.size result q
    | some its =>
      let held ← deref q.queue its.1
      if n.outbids tx.getGasPrice held.getGasPrice then
        let (_, q) ← reopensesameIt n source tx.getNonce true q
        let q := { q with accountNonce := q.accountNonce.insert source curSourceNonce }
        importNew n tx true (account.size - 1) result q
      else return (false, result.set .txInsertQueueFail (lowFeeDesc n tx), q)

structure Top where
  set : List TransactionEnv := []
  setSize : ℕ := 0
  topicSeqs : TreeMap Address Int64 := ∅
  breakNonceAccounts : TreeMap Address Int64 := ∅
  accountNonce : TreeMap Address Int64

/-- The nonce an account was last seen with; `account_nonce_[]` makes an entry where there is none. -/
def lastSeq (a : Address) (st : Top) : Int64 × Top :=
  match st.topicSeqs[a]? with
  | some seq => (seq, st)
  | none => (st.accountNonce.getD a 0, { st with accountNonce := st.accountNonce.insertIfNew a 0 })

def topLoop (limit : ℕ) : List (NodeId × QueuedTx) → Top → Top
  | [], st => st
  | (_, tx) :: l, st =>
    if st.set.length < limit then
      let size := n.byteSize tx.env
      if st.set.length + st.setSize + size ≥ txsetLimitSize && n.setByteSize st.set + size ≥ txsetLimitSize then st
      else
        let st := { st with setSize := st.setSize + size }
        let a := tx.getSourceAddress
        if st.breakNonceAccounts.contains a then topLoop limit l st
        else
          let (seq, st) := lastSeq a st
          if tx.getNonce > seq + 1 then
            topLoop limit l { st with breakNonceAccounts := st.breakNonceAccounts.insert a (seq + 1) }
          else
            topLoop limit l { st with topicSeqs := st.topicSeqs.insert a tx.getNonce, set := st.set ++ [tx.env] }
    else st

def topTransaction (limit : ℕ) (q : TransactionQueue) : List TransactionEnv × TransactionQueue :=
  let st := topLoop n limit q.queue { accountNonce := q.accountNonce }
  (st.set, { q with accountNonce := st.accountNonce })

/-- Update of the nonce of an account when a ledger is closed. -/
def raiseNonce (closeLedger : Bool) (a : Address) (nonce : Int64) (q : TransactionQueue) : TransactionQueue :=
  match q.accountNonce[a]? with
  | none => q
  | some held => if closeLedger && held < nonce then { q with accountNonce := q.accountNonce.insert a nonce } else q

/-- `ReopensesameTxs` of a set: how many were in the queue. -/
def reopensesameTxs (closeLedger : Bool) : List TransactionEnv → TransactionQueue → Option (ℕ × TransactionQueue)
  | [], q => some (0, q)
  | env :: l, q => do
    let source := env.transaction.sourceAddress
    let nonce := env.transaction.nonce
    let (found, q) ← reopensesame n source nonce q
    let (ret, q) ← reopensesameTxs closeLedger l (raiseNonce closeLedger source nonce q)
    return (found.isSome.toNat + ret, q)

/-- `ReopensesameTxs` of a vector of transactions. -/
def reopensesameTxFrms (closeLedger : Bool) : List QueuedTx → TransactionQueue → Option TransactionQueue
  | [], q => some q
  | tx :: l, q => do
    let (_, q) ← reopensesame n tx.getSourceAddress tx.getNonce q
    reopensesameTxFrms closeLedger l (raiseNonce closeLedger tx.getSourceAddress tx.getNonce q)

def safeReopensesameTx (address : Address) (nonce : Int64) (q : TransactionQueue) : Option TransactionQueue :=
  (reopensesame n address nonce q).map Prod.snd

/-- The loop of `CheckTimeoutAndDel`. -/
def timeoutLoop (expireTime : Int64) : ℕ → TransactionQueue → Option (List QueuedTx × TransactionQueue)
  | 0, _ => none
  | fuel + 1, q =>
    match q.timeQueue with
    | [] => some ([], q)
    | (_, tx) :: _ =>
      if tx.checkTimeout expireTime then do
        let (_, q) ← reopensesame n tx.getSourceAddress tx.getNonce q
        let (txs, q) ← timeoutLoop expireTime fuel q
        return (tx :: txs, q)
      else some ([], q)

def checkTimeoutAndDel (currentTime : Int64) (q : TransactionQueue) : Option (List QueuedTx × TransactionQueue) :=
  timeoutLoop n (currentTime - queueTransactionTimeout) (q.timeQueue.length + 1) q

inductive Call where
  | importTx (tx : QueuedTx) (curSourceNonce : Int64) (result : Result)
  | topTransaction (limit : ℕ)
  | reopensesameTxs (set : List TransactionEnv) (closeLedger : Bool)
  | reopensesameTxFrms (txs : List QueuedTx) (closeLedger : Bool)
  | safeReopensesameTx (address : Address) (nonce : Int64)
  | checkTimeoutAndDel (currentTime : Int64)

def call (c : Call) (q : TransactionQueue) : Option TransactionQueue :=
  match c with
  | .importTx tx curSourceNonce result => (importTx n tx curSourceNonce result q).map fun r => r.2.2
  | .topTransaction limit => some (topTransaction n limit q).2
  | .reopensesameTxs set closeLedger => (reopensesameTxs n closeLedger set q).map Prod.snd
  | .reopensesameTxFrms txs closeLedger => reopensesameTxFrms n closeLedger txs q
  | .safeReopensesameTx address nonce => safeReopensesameTx n address nonce q
  | .checkTimeoutAndDel currentTime => (checkTimeoutAndDel n currentTime q).map Prod.snd

def calls : List Call → TransactionQueue → Option TransactionQueue
  | [], q => some q
  | c :: l, q => (call n c q).bind (calls l)

end TransactionQueue
end OpenSesame
