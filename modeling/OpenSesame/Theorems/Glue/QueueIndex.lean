import OpenSesame.Glue.TransactionQueue
import OpenSesame.Lib.Table

/-! # The indexes of the transaction queue

The five containers hold the same transactions. -/

namespace OpenSesame
open Protocol Std Table TreeMap
open List (map_cons mem_cons mem_map nodup_cons)

namespace TransactionQueue

structure Slot where
  left : NodeId
  right : NodeId
  tx : QueuedTx

namespace Slot

def source (x : Slot) : Address := x.tx.getSourceAddress

def key (x : Slot) : Address × Int64 := (x.tx.getSourceAddress, x.tx.getNonce)

def leftNode (x : Slot) : NodeId × QueuedTx := (x.left, x.tx)

def rightNode (x : Slot) : NodeId × QueuedTx := (x.right, x.tx)

end Slot

def held (L : List Slot) (a : Address) : ℕ := (L.filter fun x => x.source == a).length

def AccountIndex (L : List Slot) (a : Address) : Option (TreeMap Int64 (NodeId × NodeId)) → Prop
  | none => held L a = 0
  | some m => m.size = held L a ∧ 0 < held L a ∧
      ∀ nonce its, m[nonce]? = some its ↔ ∃ x ∈ L, x.key = (a, nonce) ∧ (x.left, x.right) = its

/-- The containers are indexes of the slots, which hold transactions of `S`; `account_nonce_` may have one entry
more. -/
structure Indexes (n : QueueNode) (S : List TransactionEnv) (extra : Option Address) (L : List Slot) (q : TransactionQueue) : Prop where
  queue : q.queue.Perm (L.map Slot.leftNode)
  time : q.timeQueue.Perm (L.map Slot.rightNode)
  lefts : (L.map Slot.left).Nodup
  rights : (L.map Slot.right).Nodup
  keys : (L.map Slot.key).Nodup
  fresh : ∀ x ∈ L, x.left < q.next ∧ x.right < q.next
  known : ∀ x ∈ L, x.tx.env ∈ S
  accounts : ∀ a, AccountIndex L a q.queueByAddressAndNonce[a]?
  hashes : ∀ hash tx, q.queueByHash[hash]? = some tx ↔ ∃ x ∈ L, x.tx = tx ∧ n.contentHash tx.env = hash
  nonces : ∀ a, q.accountNonce.contains a = true ↔ 0 < held L a ∨ extra = some a

section Slots
variable {L : List Slot} {x y : Slot} {a : Address}

theorem held_pos : 0 < held L a ↔ ∃ x ∈ L, x.source = a := by
  unfold held
  rw [List.length_pos_iff_exists_mem]
  simp

theorem held_cons : held (x :: L) a = held L a + if x.source = a then 1 else 0 := by
  unfold held
  by_cases hx : x.source = a <;> simp [hx]

def others (x : Slot) (L : List Slot) : List Slot := L.filter fun y => y.left != x.left

variable (hlefts : (L.map Slot.left).Nodup)
include hlefts

theorem mem_others (hx : x ∈ L) : y ∈ others x L ↔ y ∈ L ∧ y ≠ x := by
  unfold others
  rw [List.mem_filter, bne_iff_ne]
  refine and_congr_right fun hy => not_congr ⟨fun heq => ?_, fun heq => heq ▸ rfl⟩
  exact List.inj_on_of_nodup_map hlefts hy hx heq

theorem others_eq {κ : Type} [DecidableEq κ] {f : Slot → κ}
    (hf : (L.map f).Nodup) (hx : x ∈ L) : others x L = L.filter fun y => f y != f x := by
  refine List.filter_congr fun y hy => ?_
  rw [Bool.eq_iff_iff, bne_iff_ne, bne_iff_ne]
  refine not_congr ⟨fun heq => ?_, fun heq => ?_⟩
  · rw [List.inj_on_of_nodup_map hlefts hy hx heq]
  · rw [List.inj_on_of_nodup_map hf hy hx heq]

omit hlefts in
theorem others_sublist (x : Slot) (L : List Slot) : (others x L).Sublist L := List.filter_sublist

omit hlefts in
theorem held_le_of_sublist {L' : List Slot} (h : L'.Sublist L) (a : Address) : held L' a ≤ held L a :=
  (h.filter _).length_le

theorem perm_cons_others (hx : x ∈ L) : L.Perm (x :: others x L) := by
  have hnodup : L.Nodup := .of_map _ hlefts
  refine (List.perm_ext_iff_of_nodup hnodup ?_).mpr fun y => ?_
  · refine nodup_cons.mpr ⟨fun hmem => ?_, hnodup.sublist (others_sublist x L)⟩
    exact ((mem_others hlefts hx).mp hmem).2 rfl
  · rw [mem_cons, mem_others hlefts hx]
    by_cases heq : y = x
    · simp [heq, hx]
    · simp [heq]

theorem length_others (hx : x ∈ L) : (others x L).length + 1 = L.length := by
  rw [(perm_cons_others hlefts hx).length_eq, List.length_cons]

theorem held_others (hx : x ∈ L) :
    held L a = held (others x L) a + if x.source = a then 1 else 0 := by
  have hperm := ((perm_cons_others hlefts hx).filter fun y => y.source == a).length_eq
  change held L a = held (x :: others x L) a at hperm
  rw [hperm, held_cons]

end Slots

/-! ### Nodes -/

theorem deref_of_mem {l : List (NodeId × QueuedTx)} {i : NodeId} {tx : QueuedTx} (hl : (l.map Prod.fst).Nodup)
    (h : (i, tx) ∈ l) : deref l i = some tx := by
  induction l with
  | nil => cases h
  | cons node l ih =>
    unfold deref
    rw [List.find?_cons]
    rw [map_cons, nodup_cons] at hl
    rcases mem_cons.mp h with rfl | h
    · simp
    · have hne : (node.1 == i) = false := by
        rw [beq_eq_false_iff_ne]
        rintro rfl
        exact hl.1 (mem_map.mpr ⟨_, h, rfl⟩)
      rw [hne]
      exact ih hl.2 h

theorem eraseNode_perm {l : List (NodeId × QueuedTx)} {L : List Slot} {x : Slot} {id : Slot → NodeId}
    (hid : (L.map id).Nodup) (hlefts : (L.map Slot.left).Nodup) (hx : x ∈ L)
    (h : l.Perm (L.map fun y => (id y, y.tx))) :
    (eraseNode (id x) l).Perm ((others x L).map fun y => (id y, y.tx)) := by
  have hfilter := h.filter fun node => node.1 != id x
  rw [List.filter_map] at hfilter
  rw [others_eq hlefts hid hx]
  exact hfilter

theorem placeNode_perm {l l' : List (NodeId × QueuedTx)} (h : l.Perm l') (place : ℕ) (node : NodeId × QueuedTx) :
    (placeNode place node l).Perm (node :: l') := by
  refine (List.perm_middle.trans ?_)
  rw [List.take_append_drop]
  exact h.cons node

variable {m : TreeMap Int64 (NodeId × NodeId)}

namespace Indexes
variable {n : QueueNode} {S : List TransactionEnv} {extra : Option Address} {L : List Slot} {q : TransactionQueue} {x : Slot} {a : Address}

variable (h : Indexes n S extra L q)
include h

theorem deref_left (hx : x ∈ L) : deref q.queue x.left = some x.tx := by
  refine deref_of_mem ?_ (h.queue.mem_iff.mpr (List.mem_map_of_mem (f := Slot.leftNode) hx))
  rw [(h.queue.map Prod.fst).nodup_iff, List.map_map]
  exact h.lefts

theorem length_queue : q.queue.length = L.length := by
  rw [h.queue.length_eq, List.length_map]

theorem length_timeQueue : q.timeQueue.length = L.length := by
  rw [h.time.length_eq, List.length_map]

theorem account (hx : x ∈ L) :
    ∃ m, q.queueByAddressAndNonce[x.source]? = some m ∧ m[x.tx.getNonce]? = some (x.left, x.right) ∧
      m.size = held L x.source := by
  have haccount := h.accounts x.source
  rcases hm : q.queueByAddressAndNonce[x.source]? with - | m
  · rw [hm] at haccount
    have hpos := held_pos.mpr ⟨x, hx, rfl⟩
    exact absurd haccount hpos.ne'
  · rw [hm] at haccount
    obtain ⟨hsize, -, hentries⟩ := haccount
    exact ⟨m, rfl, (hentries _ _).mpr ⟨x, hx, rfl, rfl⟩, hsize⟩

theorem of_account {nonce : Int64} {its : NodeId × NodeId}
    (hm : q.queueByAddressAndNonce[a]? = some m) (hits : m[nonce]? = some its) :
    ∃ x ∈ L, x.key = (a, nonce) ∧ (x.left, x.right) = its := by
  have haccount := h.accounts a
  rw [hm] at haccount
  exact (haccount.2.2 nonce its).mp hits

end Indexes

/-! ### Taking a slot out -/

section Remove
variable {n : QueueNode} {S : List TransactionEnv} {L : List Slot} {q : TransactionQueue} {x : Slot} {a : Address}

theorem key_eq_iff {y : Slot} {nonce : Int64} : y.key = (a, nonce) ↔ y.source = a ∧ y.tx.getNonce = nonce := Prod.mk_inj

theorem AccountIndex.others_of_ne {o : Option (TreeMap Int64 (NodeId × NodeId))} (hlefts : (L.map Slot.left).Nodup)
    (hx : x ∈ L) (ha : x.source ≠ a) (h : AccountIndex L a o) : AccountIndex (others x L) a o := by
  have hheld : held (others x L) a = held L a := by rw [held_others hlefts hx, if_neg ha, add_zero]
  cases o with
  | none => exact hheld.trans h
  | some m =>
    obtain ⟨hsize, hpos, hentries⟩ := h
    refine ⟨hsize.trans hheld.symm, hheld ▸ hpos, fun nonce its => (hentries nonce its).trans ?_⟩
    refine exists_congr fun y => ?_
    rw [mem_others hlefts hx]
    refine ⟨fun ⟨hy, hkey, hits⟩ => ⟨⟨hy, ?_⟩, hkey, hits⟩, fun ⟨⟨hy, _⟩, hkey, hits⟩ => ⟨hy, hkey, hits⟩⟩
    rintro rfl
    exact ha (key_eq_iff.mp hkey).1

theorem AccountIndex.others_self (hlefts : (L.map Slot.left).Nodup)
    (hkeys : (L.map Slot.key).Nodup) (hx : x ∈ L) (h : AccountIndex L x.source (some m)) :
    (m.erase x.tx.getNonce).size = held (others x L) x.source ∧
      ∀ nonce its, (m.erase x.tx.getNonce)[nonce]? = some its ↔
        ∃ y ∈ others x L, y.key = (x.source, nonce) ∧ (y.left, y.right) = its := by
  obtain ⟨hsize, -, hentries⟩ := h
  have hin : m.contains x.tx.getNonce = true := contains_iff.mpr ⟨_, (hentries _ _).mpr ⟨x, hx, rfl, rfl⟩⟩
  have hheld : held L x.source = held (others x L) x.source + 1 := by rw [held_others hlefts hx, if_pos rfl]
  refine ⟨by rw [size_erase, if_pos hin, hsize, hheld]; rfl, fun nonce its => ?_⟩
  constructor
  · intro hits
    obtain ⟨hne, hits⟩ := erase_eq_some hits
    obtain ⟨y, hy, hkey, hits⟩ := (hentries nonce its).mp hits
    refine ⟨y, (mem_others hlefts hx).mpr ⟨hy, ?_⟩, hkey, hits⟩
    rintro rfl
    exact hne (key_eq_iff.mp hkey).2.symm
  · rintro ⟨y, hy, hkey, hits⟩
    obtain ⟨hy, hne⟩ := (mem_others hlefts hx).mp hy
    have hnonce : nonce ≠ x.tx.getNonce := by
      rintro rfl
      exact hne (List.inj_on_of_nodup_map hkeys hy hx hkey)
    rw [erase_of_ne hnonce]
    exact (hentries nonce its).mpr ⟨y, hy, hkey, hits⟩

variable (hhash : ∀ e ∈ S, ∀ e' ∈ S, n.contentHash e = n.contentHash e' → e.transaction = e'.transaction)
include hhash

theorem key_of_hash {y : Slot} (hy : y.tx.env ∈ S) (hx : x.tx.env ∈ S)
    (h : n.contentHash y.tx.env = n.contentHash x.tx.env) : y.key = x.key := by
  have htransaction := hhash _ hy _ hx h
  unfold Slot.key QueuedTx.getSourceAddress QueuedTx.getNonce
  rw [htransaction]

theorem Indexes.remove (h : Indexes n S none L q) (hx : x ∈ L) :
    ∃ q', reopensesameIt n x.source x.tx.getNonce true q = some (x.tx, q') ∧ Indexes n S none (others x L) q' ∧
      q'.queueLimit = q.queueLimit ∧ q'.accountTxsLimit = q.accountTxsLimit := by
  obtain ⟨m, hm, hits, -⟩ := h.account hx
  have hself := h.accounts x.source
  rw [hm] at hself
  obtain ⟨hsize, hentries⟩ := hself.others_self h.lefts h.keys hx
  have hqueue := eraseNode_perm h.lefts h.lefts hx h.queue
  have htime := eraseNode_perm h.rights h.lefts hx h.time
  have hsub := others_sublist x L
  have hhashes : ∀ hash tx, (q.queueByHash.erase (n.contentHash x.tx.env))[hash]? = some tx ↔
      ∃ y ∈ others x L, y.tx = tx ∧ n.contentHash tx.env = hash := by
    intro hash tx
    constructor
    · intro htx
      obtain ⟨hne, htx⟩ := erase_eq_some htx
      obtain ⟨y, hy, rfl, rfl⟩ := (h.hashes hash tx).mp htx
      refine ⟨y, (mem_others h.lefts hx).mpr ⟨hy, ?_⟩, rfl, rfl⟩
      rintro rfl
      exact hne rfl
    · rintro ⟨y, hy, rfl, rfl⟩
      obtain ⟨hy, hne⟩ := (mem_others h.lefts hx).mp hy
      have hne' : n.contentHash y.tx.env ≠ n.contentHash x.tx.env := fun heq =>
        hne (List.inj_on_of_nodup_map h.keys hy hx (key_of_hash hhash (h.known y hy) (h.known x hx) heq))
      rw [erase_of_ne hne']
      exact (h.hashes _ _).mpr ⟨y, hy, rfl, rfl⟩
  have hfresh : ∀ y ∈ others x L, y.left < q.next ∧ y.right < q.next := fun y hy => h.fresh y (hsub.subset hy)
  have hknown : ∀ y ∈ others x L, y.tx.env ∈ S := fun y hy => h.known y (hsub.subset hy)
  unfold reopensesameIt
  simp only [hm, hits, h.deref_left hx, Option.bind_eq_bind, Option.bind_some, Bool.true_and]
  split
  · -- it was the only one of its account
    rename_i hempty
    rw [isEmpty_eq_size_eq_zero, hsize, beq_iff_eq] at hempty
    refine ⟨_, rfl, ⟨hqueue, htime, h.lefts.sublist (hsub.map _), h.rights.sublist (hsub.map _),
      h.keys.sublist (hsub.map _), hfresh, hknown, fun a => ?_, hhashes, fun a => ?_⟩, rfl, rfl⟩
    · by_cases ha : x.source = a
      · subst ha
        rw [getElem?_erase_self]
        exact hempty
      · rw [erase_of_ne (Ne.symm ha)]
        exact (h.accounts a).others_of_ne h.lefts hx ha
    · by_cases ha : x.source = a
      · subst ha
        simp [hempty]
      · have hheld := held_others (a := a) h.lefts hx
        rw [if_neg ha, add_zero] at hheld
        rw [← hheld, ← h.nonces a, contains_iff, contains_iff, erase_of_ne (Ne.symm ha)]
  · rename_i hempty
    rw [isEmpty_eq_size_eq_zero, hsize, beq_iff_eq] at hempty
    refine ⟨_, rfl, ⟨hqueue, htime, h.lefts.sublist (hsub.map _), h.rights.sublist (hsub.map _),
      h.keys.sublist (hsub.map _), hfresh, hknown, fun a => ?_, hhashes, fun a => ?_⟩, rfl, rfl⟩
    · by_cases ha : x.source = a
      · subst ha
        rw [getElem?_insert_self]
        exact ⟨hsize, Nat.pos_of_ne_zero hempty, hentries⟩
      · rw [insert_of_ne (Ne.symm ha)]
        exact (h.accounts a).others_of_ne h.lefts hx ha
    · rw [h.nonces a]
      by_cases ha : x.source = a
      · subst ha
        have hpos := held_pos.mpr ⟨x, hx, rfl⟩
        simp only [hpos, Nat.pos_of_ne_zero hempty]
      · rw [held_others h.lefts hx, if_neg ha, add_zero]

end Remove

/-! ### Putting a slot in -/

section Insert
variable {n : QueueNode} {S : List TransactionEnv} {extra : Option Address} {L : List Slot} {q : TransactionQueue} {tx : QueuedTx} {a : Address}

theorem Indexes.getD_account (h : Indexes n S extra L q) (a : Address) :
    (q.queueByAddressAndNonce.getD a ∅).size = held L a ∧
      ∀ nonce its, (q.queueByAddressAndNonce.getD a ∅)[nonce]? = some its ↔
        ∃ x ∈ L, x.key = (a, nonce) ∧ (x.left, x.right) = its := by
  have haccount := h.accounts a
  rw [getD_eq_getD_getElem?]
  rcases hm : q.queueByAddressAndNonce[a]? with - | m
  · rw [hm] at haccount
    refine ⟨haccount.symm, fun nonce its => ?_⟩
    rw [Option.getD_none, getElem?_emptyc]
    refine ⟨nofun, fun ⟨x, hx, hkey, _⟩ => ?_⟩
    have hpos := held_pos.mpr ⟨x, hx, (key_eq_iff.mp hkey).1⟩
    exact absurd haccount hpos.ne'
  · rw [hm] at haccount
    exact ⟨haccount.1, haccount.2.2⟩

theorem contains_touchNonces (first second : QueuedTx) (m : TreeMap Address Int64) :
    (touchNonces first second m).contains a = true ↔
      m.contains a = true ∨ first.getSourceAddress = a ∨ second.getSourceAddress = a := by
  unfold touchNonces
  rw [contains_insertIfNew, contains_insertIfNew]
  simp only [Bool.or_eq_true, beq_iff_eq, LawfulEqCmp.compare_eq_iff_eq]
  tauto

theorem contains_compared {compared : List QueuedTx} {m : TreeMap Address Int64}
    (hm : m.contains tx.getSourceAddress = true) (h : ∀ y ∈ compared, m.contains y.getSourceAddress = true) :
    (compared.foldl (fun m y => touchNonces tx y m) m).contains a = true ↔ m.contains a = true := by
  induction compared generalizing m with
  | nil => exact Iff.rfl
  | cons y l ih =>
    have hkept : ∀ b, m.contains b = true → (touchNonces tx y m).contains b = true := fun b hb =>
      (contains_touchNonces tx y m).mpr (.inl hb)
    rw [List.foldl_cons, ih (hkept _ hm) fun z hz => hkept _ (h z (List.mem_cons_of_mem _ hz)), contains_touchNonces]
    constructor
    · rintro (hb | rfl | rfl)
      · exact hb
      · exact hm
      · exact h y List.mem_cons_self
    · exact .inl

theorem Indexes.contains_of_mem (h : Indexes n S extra L q) {node : NodeId × QueuedTx} (hnode : node ∈ q.queue) :
    q.accountNonce.contains node.2.getSourceAddress = true := by
  obtain ⟨x, hx, rfl⟩ := mem_map.mp (h.queue.mem_iff.mp hnode)
  exact (h.nonces _).mpr (.inl (held_pos.mpr ⟨x, hx, rfl⟩))

def newSlot (q : TransactionQueue) (tx : QueuedTx) : Slot := ⟨q.next, q.next + 1, tx⟩

theorem AccountIndex.cons_of_ne {x : Slot} {o : Option (TreeMap Int64 (NodeId × NodeId))} (ha : x.source ≠ a)
    (h : AccountIndex L a o) : AccountIndex (x :: L) a o := by
  have hheld : held (x :: L) a = held L a := by rw [held_cons, if_neg ha, add_zero]
  cases o with
  | none => exact hheld.trans h
  | some m =>
    obtain ⟨hsize, hpos, hentries⟩ := h
    refine ⟨hsize.trans hheld.symm, hheld ▸ hpos, fun nonce its => (hentries nonce its).trans ?_⟩
    rw [List.exists_mem_cons_iff]
    refine ⟨.inr, ?_⟩
    rintro (⟨hkey, -⟩ | hmem)
    · exact absurd (key_eq_iff.mp hkey).1 ha
    · exact hmem

theorem AccountIndex.cons_self {x : Slot} (hkey : ∀ y ∈ L, y.key ≠ x.key) (hsize : m.size = held L x.source)
    (hentries : ∀ nonce its, m[nonce]? = some its ↔ ∃ y ∈ L, y.key = (x.source, nonce) ∧ (y.left, y.right) = its) :
    AccountIndex (x :: L) x.source (some (m.insert x.tx.getNonce (x.left, x.right))) := by
  have hheld : held (x :: L) x.source = held L x.source + 1 := by rw [held_cons, if_pos rfl]
  have hnew : ¬ m.contains x.tx.getNonce = true := by
    rw [contains_iff]
    rintro ⟨its, hits⟩
    obtain ⟨y, hy, hkey', -⟩ := (hentries _ _).mp hits
    exact hkey y hy hkey'
  refine ⟨?_, hheld ▸ Nat.succ_pos _, fun nonce its => ?_⟩
  · rw [size_insert, if_neg hnew, hsize, hheld]
  rw [List.exists_mem_cons_iff]
  by_cases hnonce : x.tx.getNonce = nonce
  · subst hnonce
    rw [getElem?_insert_self, Option.some_inj]
    refine ⟨fun hits => .inl ⟨rfl, hits⟩, ?_⟩
    rintro (⟨-, hits⟩ | ⟨y, hy, hkey', -⟩)
    · exact hits
    · exact absurd hkey' (hkey y hy)
  · rw [insert_of_ne (Ne.symm hnonce), hentries]
    refine ⟨.inr, ?_⟩
    rintro (⟨hkey', -⟩ | hmem)
    · exact absurd (key_eq_iff.mp hkey').2 hnonce
    · exact hmem

variable (hhash : ∀ e ∈ S, ∀ e' ∈ S, n.contentHash e = n.contentHash e' → e.transaction = e'.transaction)
include hhash

theorem Indexes.insert (h : Indexes n S (some tx.getSourceAddress) L q) (htx : tx.env ∈ S)
    (hkey : ∀ y ∈ L, y.key ≠ (tx.getSourceAddress, tx.getNonce)) :
    Indexes n S none (newSlot q tx :: L) (TransactionQueue.insert n tx q) where
  queue := placeNode_perm h.queue _ (q.next, tx)
  time := placeNode_perm h.time _ (q.next + 1, tx)
  lefts := by
    rw [map_cons, nodup_cons]
    refine ⟨fun hmem => ?_, h.lefts⟩
    obtain ⟨y, hy, heq⟩ := mem_map.mp hmem
    have hlt := (h.fresh y hy).1
    exact hlt.ne heq
  rights := by
    rw [map_cons, nodup_cons]
    refine ⟨fun hmem => ?_, h.rights⟩
    obtain ⟨y, hy, heq⟩ := mem_map.mp hmem
    have hlt := (h.fresh y hy).2
    exact (hlt.trans (Nat.lt_succ_self _)).ne heq
  keys := by
    rw [map_cons, nodup_cons]
    refine ⟨fun hmem => ?_, h.keys⟩
    obtain ⟨y, hy, heq⟩ := mem_map.mp hmem
    exact hkey y hy heq
  fresh := by
    intro y hy
    change y.left < q.next + 2 ∧ y.right < q.next + 2
    rcases mem_cons.mp hy with rfl | hy
    · exact ⟨Nat.lt_add_of_pos_right two_pos, Nat.lt_succ_self _⟩
    · have hlt := h.fresh y hy
      exact ⟨Nat.lt_add_right 2 hlt.1, Nat.lt_add_right 2 hlt.2⟩
  known := by
    intro y hy
    rcases mem_cons.mp hy with rfl | hy
    · exact htx
    · exact h.known y hy
  accounts := by
    intro a
    obtain ⟨hsize, hentries⟩ := h.getD_account tx.getSourceAddress
    by_cases ha : tx.getSourceAddress = a
    · subst ha
      unfold TransactionQueue.insert emplace
      dsimp only
      rw [getElem?_insert_self]
      exact AccountIndex.cons_self (x := newSlot q tx) hkey hsize hentries
    · unfold TransactionQueue.insert emplace
      dsimp only
      rw [insert_of_ne (Ne.symm ha)]
      exact (h.accounts a).cons_of_ne ha
  hashes := by
    intro hash t
    change (q.queueByHash.insert (n.contentHash tx.env) tx)[hash]? = some t ↔ _
    rw [List.exists_mem_cons_iff]
    constructor
    · intro ht
      rcases insert_eq_some ht with ⟨rfl, rfl⟩ | ⟨-, ht⟩
      · exact .inl ⟨rfl, rfl⟩
      · exact .inr ((h.hashes hash t).mp ht)
    · rintro (⟨rfl, rfl⟩ | ⟨y, hy, rfl, rfl⟩)
      · exact getElem?_insert_self
      · have hne : n.contentHash y.tx.env ≠ n.contentHash tx.env := fun heq =>
          hkey y hy (key_of_hash (x := newSlot q tx) hhash (h.known y hy) htx heq)
        rw [insert_of_ne hne]
        exact (h.hashes _ _).mpr ⟨y, hy, rfl, rfl⟩
  nonces := by
    intro a
    have hself := (h.nonces tx.getSourceAddress).mpr (.inr rfl)
    have hcompared : ∀ y ∈ (n.search (priorityCompare q.accountNonce) (q.queue.map Prod.snd) tx).1,
        q.accountNonce.contains y.getSourceAddress = true := by
      intro y hy
      obtain ⟨node, hnode, rfl⟩ := mem_map.mp (n.search_mem _ _ _ y hy)
      exact h.contains_of_mem hnode
    change (List.foldl _ q.accountNonce _).contains a = true ↔ _
    rw [contains_compared hself hcompared, h.nonces a, held_cons, Option.some_inj]
    change _ ↔ 0 < held L a + (if tx.getSourceAddress = a then 1 else 0) ∨ _
    by_cases ha : tx.getSourceAddress = a <;> simp [ha]

end Insert

end TransactionQueue
end OpenSesame
