import OpenSesame.Theorems.Trie.Memory

/-! # Runs of a trie

Sequences of `Set`, `Delete`, `UpdateHash`, `AddToDB`, `FreeMemory` and `Init`, the last two only
when every change has been hashed and written. -/

namespace OpenSesame
open Patricia RadixTree KVTrie Function List Option

inductive TrieOp
  | set (key value : Bytes)
  | delete (key : Bytes)
  | updateHash
  | addToDB
  | freeMemory (depth : ℤ)
  | init (depth : ℤ)
  deriving DecidableEq, Repr

structure TrieState where
  trie : KVTrie
  db : Db

/-- One operation; `Init` reads the same database again, with a new batch. -/
def TrieOp.step (hashCrypto : Bytes → Bytes) (keyPrefix : Bytes) (s : TrieState) : TrieOp → Option TrieState
  | .set key value => do
    let r ← s.trie.set keyPrefix s.db key value
    some { s with trie := r.2 }
  | .delete key => do
    let r ← s.trie.delete keyPrefix s.db key
    some { s with trie := r.2 }
  | .updateHash => some { s with trie := s.trie.updateHash hashCrypto keyPrefix }
  | .addToDB => some ⟨(s.trie.addToDB s.db).1, (s.trie.addToDB s.db).2⟩
  | .freeMemory depth => some { s with trie := s.trie.freeMemory depth }
  | .init depth => do
    let t ← KVTrie.init keyPrefix s.db depth
    some { s with trie := t }

/-- The operations in order, on a trie initialized from `db`. -/
def runTrie (hashCrypto : Bytes → Bytes) (keyPrefix : Bytes) (db : Db) (depth : ℤ) (ops : List TrieOp) :
    Option TrieState := do
  let t ← init keyPrefix db depth
  ops.foldlM (TrieOp.step hashCrypto keyPrefix) ⟨t, db⟩

/-- Whether some change is not hashed, and whether some hashed change is not written. -/
structure Progress where
  unhashed : Bool := false
  unwritten : Bool := false
  deriving DecidableEq, Repr

def Progress.next (p : Progress) : TrieOp → Progress
  | .set .. => { p with unhashed := true }
  | .delete .. => { p with unhashed := true }
  | .updateHash => ⟨false, p.unhashed || p.unwritten⟩
  | .addToDB => { p with unwritten := false }
  | .freeMemory _ => p
  | .init _ => p

def Progress.allows (p : Progress) : TrieOp → Bool
  | .freeMemory _ => !p.unhashed && !p.unwritten
  | .init _ => !p.unhashed && !p.unwritten
  | _ => true

/-- Memory is freed and the trie initialized again only when every change has been hashed and written. -/
def admissible (p : Progress) : List TrieOp → Bool
  | [] => true
  | op :: ops => p.allows op && admissible (p.next op) ops

def TrieOp.apply (m : Bytes → Option Bytes) : TrieOp → Bytes → Option Bytes
  | .set key value => update m key (some value)
  | .delete key => update m key none
  | _ => m

/-- The map the operations leave: each key has what its last `Set` or `Delete` gave it. -/
def finalMap (ops : List TrieOp) : Bytes → Option Bytes :=
  ops.foldl TrieOp.apply fun _ => none

/-- The map on nibble lists: keys are those of even length. -/
def pathMap (m : Bytes → Option Bytes) (l : List Nibble) : Option Bytes :=
  if l.length % 2 = 0 then m (pack l) else none

theorem pathMap_nibbles (m : Bytes → Option Bytes) (k : Bytes) : pathMap m (nibbles k) = m k := by
  simp [pathMap, length_nibbles, pack_nibbles]

theorem nibbles_pack {l : List Nibble} (h : l.length % 2 = 0) : nibbles (pack l) = l :=
  pack_inj ((length_nibbles _).trans h.symm) (pack_nibbles _)

theorem pathMap_update (m : Bytes → Option Bytes) (k : Bytes) (v : Option Bytes) (l : List Nibble) :
    pathMap (update m k v) l = if l = nibbles k then v else pathMap m l := by
  unfold pathMap
  by_cases hl : l = nibbles k
  · rw [if_pos hl, hl, if_pos (length_nibbles k), pack_nibbles, update_self]
  · rw [if_neg hl]
    split
    · rename_i he
      rw [update_of_ne]
      rintro rfl
      exact hl (nibbles_pack he).symm
    · rfl

section
variable (hashCrypto : Bytes → Bytes) (keyPrefix : Bytes)

def Closed (d : Db) : Prop :=
  ∀ x, d (keyPrefix ++ x) ≠ none → ∃ l, KeyAt keyPrefix l (keyPrefix ++ x)

def TrieState.eff (s : TrieState) : Db :=
  writeBatch s.db s.trie.batch

structure InvAt (s : TrieState) (pr : Progress) (m : Bytes → Option Bytes) (frm : NodeFrm)
    (children : Nibble → Pointer) (val : Option Bytes) (ch : Nibble → PTree) : Prop where
  root : s.trie.root = .node frm children
  rep : Rep hashCrypto keyPrefix s.db s.eff (.node frm children) (digest hashCrypto (.node [] val ch)) (.node [] val ch)
  wf : (node [] val ch).WF []
  find : ∀ l, (node [] val ch).find l = pathMap m l
  beside : ∀ l, (node [] val ch).sub l = .empty → ∀ key, KeyAt keyPrefix l key → s.eff key = none
  closed : Closed keyPrefix s.db ∧ Closed keyPrefix s.eff
  hashed : pr.unhashed = false →
    Synced hashCrypto keyPrefix s.eff (.node [] val ch) ∧ ∀ i, (children i).modified = false
  written : pr.unhashed = false → pr.unwritten = false → Synced hashCrypto keyPrefix s.db (.node [] val ch)

def Inv (s : TrieState) (pr : Progress) (m : Bytes → Option Bytes) : Prop :=
  ∃ frm children val ch, InvAt hashCrypto keyPrefix s pr m frm children val ch

variable {hashCrypto keyPrefix} {s : TrieState} {pr : Progress} {m : Bytes → Option Bytes} {frm : NodeFrm}
  {children : Nibble → Pointer} {val : Option Bytes} {ch : Nibble → PTree} {d : Db}

/-! ### `Set` and `Delete` -/

theorem insert_root (k : List Nibble) (v : Bytes) (val : Option Bytes) (ch : Nibble → PTree) :
    ∃ val' ch', insert k v (.node [] val ch) = .node [] val' ch' := by
  rcases insert_node k v [] val ch with ⟨-, e⟩ | ⟨i, -, e⟩ | ⟨j, hj, -⟩ | ⟨i, j, -, -, hj, -⟩
  · exact ⟨_, _, e⟩
  · exact ⟨_, _, e⟩
  · simp at hj
  · simp at hj

theorem erase_root (k : List Nibble) (val : Option Bytes) (ch : Nibble → PTree) :
    ∃ val' ch', erase k (.node [] val ch) = .node [] val' ch' := by
  rcases erase_node k [] val ch with ⟨-, e⟩ | ⟨i, -, e⟩ | ⟨-, e⟩ <;> exact ⟨_, _, e⟩

theorem pathFuel_enough (key : Bytes) :
    (nibbles key).length - ([] : List Nibble).length < pathFuel (location (nibbles key)) := by
  rw [location_nibbles, length_nibbles_eq]
  simp only [pathFuel, key2Location, length_cons, length_nil]
  omega

theorem inv_set (h : InvAt hashCrypto keyPrefix s pr m frm children val ch) (key value : Bytes) :
    ∃ s', TrieOp.step hashCrypto keyPrefix s (.set key value) = some s' ∧
      Inv hashCrypto keyPrefix s' (pr.next (.set key value)) (Function.update m key (some value)) := by
  have hside : NoLeafBeside keyPrefix s.eff [] (.node [] val ch) := fun l _ hl he => h.beside l hl _ (Or.inr ⟨he, rfl⟩)
  obtain ⟨b, frm', children', hset, -, -, hrep⟩ :=
    setItem_spec (v := value) (length_nibbles key) h.rep h.wf hside nil_prefix (pathFuel_enough key)
  obtain ⟨val', ch', e⟩ := insert_root (nibbles key) value val ch
  have hpre : [] <+: nibbles key := nil_prefix
  refine ⟨{ s with trie := { s.trie with root := .node frm' children' } }, ?_, frm', children', val', ch', ?_⟩
  · rw [location_nibbles] at hset
    simp only [TrieOp.step, KVTrie.set, h.root, hset, bind_eq_bind, bind_some]
  · rw [e] at hrep
    refine ⟨rfl, hrep _, e ▸ h.wf.insert hpre, fun l => ?_, fun l hl => ?_, h.closed, nofun, nofun⟩
    · rw [← e, RadixTree.find_insert h.wf hpre, h.find, pathMap_update]
    · rw [← e] at hl
      exact h.beside l (RadixTree.sub_of_insert_empty h.wf hpre hl)

theorem inv_delete (h : InvAt hashCrypto keyPrefix s pr m frm children val ch) (key : Bytes) :
    ∃ s', TrieOp.step hashCrypto keyPrefix s (.delete key) = some s' ∧
      Inv hashCrypto keyPrefix s' (pr.next (.delete key)) (update m key none) := by
  obtain ⟨b, frm', children', hdel, -, htrue, hfalse⟩ :=
    deleteItem_spec (length_nibbles key) h.rep h.wf nil_prefix (pathFuel_enough key)
  obtain ⟨val', ch', e⟩ := erase_root (nibbles key) val ch
  have hrep : Rep hashCrypto keyPrefix s.db s.eff (.node frm' children') (digest hashCrypto (.node [] val' ch'))
      (.node [] val' ch') := by
    cases hb : b with
    | true => exact e ▸ (htrue hb).2 _
    | false =>
      obtain ⟨-, hsame, hrep⟩ := hfalse hb
      rw [← e, hsame]
      exact hrep
  refine ⟨{ s with trie := { s.trie with root := .node frm' children' } }, ?_, frm', children', val', ch', ?_⟩
  · rw [location_nibbles] at hdel
    simp only [TrieOp.step, delete, h.root, hdel, bind_eq_bind, bind_some]
  · refine ⟨rfl, hrep, e ▸ h.wf.erase, fun l => ?_, fun l hl => ?_, h.closed, nofun, nofun⟩
    · rw [← e, find_erase, h.find, pathMap_update]
    · refine h.beside l ?_
      rwa [← e, ← isNode_eq_false, isNode_sub_erase, isNode_eq_false] at hl

/-! ### `UpdateHash` and `AddToDB` -/

theorem inv_updateHash (h : InvAt hashCrypto keyPrefix s pr m frm children val ch) :
    ∃ frm' children', InvAt hashCrypto keyPrefix { s with trie := s.trie.updateHash hashCrypto keyPrefix }
        (pr.next .updateHash) m frm' children' val ch ∧
      frm'.modified = false ∧
      (s.trie.updateHash hashCrypto keyPrefix).rootHash = hashCrypto (topInfo hashCrypto (.node [] val ch)).serialize ∧
      writeBatch s.db (s.trie.updateHash hashCrypto keyPrefix).batch (nodeKey keyPrefix []) =
        record hashCrypto (.node [] val ch) := by
  obtain ⟨hhash, hmod, hrep, hframe⟩ := updateHashNode_root h.rep h.wf
  obtain ⟨frm', children', e⟩ : ∃ frm' children',
      (updateHashNode hashCrypto keyPrefix (.node frm children)).2.1 = .node frm' children' := by
    rw [updateHashNode_eq]
    exact ⟨_, _, rfl⟩
  rw [e] at hmod hrep
  have heff : writeBatch s.db (s.trie.updateHash hashCrypto keyPrefix).batch =
      writeBatch s.eff (updateHashNode hashCrypto keyPrefix (.node frm children)).2.2 := by
    simp only [updateHash, h.root, writeBatch_append, TrieState.eff]
  have hbeside : ∀ l, (node [] val ch).sub l = .empty → ∀ key, KeyAt keyPrefix l key →
      writeBatch s.eff (updateHashNode hashCrypto keyPrefix (.node frm children)).2.2 key = none := by
    intro l hl key hk
    rw [hframe key]
    · exact h.beside l hl key hk
    · rintro ⟨l', hl', hk'⟩
      rw [hk'.unique hk, hl] at hl'
      cases hl'
  obtain ⟨_, _, _, e', -, -, -, hset⟩ := id hrep
  cases e'
  have hsynced := (hrep.holds h.wf hmod).synced hbeside
  have hclosed : Closed keyPrefix (writeBatch s.eff (updateHashNode hashCrypto keyPrefix (.node frm children)).2.2) := by
    intro x hx
    by_cases hk : KeyOf keyPrefix (.node [] val ch) (keyPrefix ++ x)
    · obtain ⟨l, -, hl⟩ := hk
      exact ⟨l, hl⟩
    · rw [hframe _ hk] at hx
      exact h.closed.2 x hx
  refine ⟨frm', children', ⟨?_, ?_, h.wf, h.find, ?_, ⟨h.closed.1, ?_⟩, fun _ => ?_, fun _ hw => ?_⟩, hmod, ?_, ?_⟩
  · simp only [updateHash, h.root, e]
  · simpa only [TrieState.eff, heff] using hrep
  · simpa only [TrieState.eff, heff] using hbeside
  · simpa only [TrieState.eff, heff] using hclosed
  · simpa only [TrieState.eff, heff] using And.intro hsynced (hset hmod).below
  · simp only [Progress.next, Bool.or_eq_false_iff] at hw
    exact h.written hw.1 hw.2
  · simp only [updateHash, h.root, hhash]
  · rw [heff]
    exact (hset hmod).node

theorem inv_addToDB (h : InvAt hashCrypto keyPrefix s pr m frm children val ch) :
    InvAt hashCrypto keyPrefix ⟨(s.trie.addToDB s.db).1, (s.trie.addToDB s.db).2⟩ (pr.next .addToDB) m frm children
      val ch :=
  ⟨h.root, h.rep.written, h.wf, h.find, h.beside, ⟨h.closed.2, h.closed.2⟩, h.hashed, fun hu _ => (h.hashed hu).1⟩

/-! ### `FreeMemory` and `Init` -/

theorem inv_freeMemory (h : InvAt hashCrypto keyPrefix s pr m frm children val ch) (hu : pr.unhashed = false)
    (hw : pr.unwritten = false) (depth : ℤ) :
    Inv hashCrypto keyPrefix { s with trie := s.trie.freeMemory depth } pr m := by
  obtain ⟨heff, hmod⟩ := h.hashed hu
  have hdb := h.written hu hw
  have hrec := fun i => release_spec (h.rep.child i) (h.wf.2 i) (hmod i) (hdb.holds h.wf i) (depth - 1)
  obtain ⟨children', ch', e, hrep, hwf, hdig, hfind, hmod'⟩ := release_node h.rep h.wf hmod (hdb.holds h.wf) hrec
  have heff' := heff.of_find h.wf hwf hfind
  refine ⟨frm, children', val, ch', ⟨?_, ?_, hwf, fun l => (hfind l).trans (h.find l), fun l hl key hk => ?_, h.closed,
    fun _ => ⟨heff', hmod'⟩, fun _ _ => hdb.of_find h.wf hwf hfind⟩⟩
  · simp only [freeMemory, h.root, e]
  · rw [hdig]
    exact hrep
  · exact heff'.beside hl hk

theorem rep_init (h : Synced hashCrypto keyPrefix d (.node [] val ch)) (hw : (node [] val ch).WF []) (c : Child) :
    Rep hashCrypto keyPrefix d d (.bare { location := rootLocation, info := topInfo hashCrypto (.node [] val ch) }) c
      (compressBelow (.node [] val ch)) := by
  have hcw : (compressBelow (.node [] val ch)).WF [] := WF.compressBelow hw
  have hcs : Synced hashCrypto keyPrefix d (compressBelow (.node [] val ch)) := h.of_find hw hcw (find_compressBelow hw)
  refine ⟨[], val, _, rfl, rfl, ⟨by simp, nofun, nofun, fun _ _ => ⟨rfl, fun he => ?_⟩⟩, fun i => ?_, nofun⟩
  · rw [h.leaf [] he, find_self]
  · exact ⟨canonical_compress _, (digest_compress _).symm, hcs.holds hcw i, hcs.holds hcw i⟩

theorem inv_init (h : Synced hashCrypto keyPrefix d (.node [] val ch)) (hw : (node [] val ch).WF [])
    (hfind : ∀ l, (node [] val ch).find l = pathMap m l) (hclosed : Closed keyPrefix d) (depth : ℤ) :
    ∃ t, init keyPrefix d depth = some t ∧ Inv hashCrypto keyPrefix ⟨t, d⟩ {} m := by
  -- a root that stands for any tree of the map, with nothing below it modified, will do
  have finish : ∀ {frm : NodeFrm} {children : Nibble → Pointer} {val' : Option Bytes} {ch' : Nibble → PTree},
      (node [] val' ch').WF [] → (∀ l, (node [] val' ch').find l = (node [] val ch).find l) →
      Rep hashCrypto keyPrefix d d (.node frm children) (digest hashCrypto (.node [] val' ch')) (.node [] val' ch') →
      (∀ i, (children i).modified = false) →
      Inv hashCrypto keyPrefix ⟨⟨.node frm children, [], []⟩, d⟩ {} m := by
    intro frm children val' ch' hw' hf hrep hmod
    have hs := h.of_find hw hw' hf
    exact ⟨frm, children, val', ch', rfl, hrep, hw', fun l => (hf l).trans (hfind l), fun l hl key hk => hs.beside hl hk,
      ⟨hclosed, hclosed⟩, fun _ => ⟨hs, hmod⟩, fun _ _ => hs⟩
  have hkey : location2DBkey keyPrefix rootLocation false = nodeKey keyPrefix [] := rfl
  rcases h.root with hroot | ⟨hroot, hnone⟩
  · have hrec : record hashCrypto ((node [] val ch).sub []) =
        some (topInfo hashCrypto (.node [] val ch)).serialize := by
      rw [sub_self, record]
      simp
    obtain ⟨q, hq, hrep, -, hchildren⟩ := load_spec (rep_init h hw (digest hashCrypto (compressBelow (.node [] val ch))))
      (WF.compressBelow hw) (depth + 1).toNat
    obtain ⟨children', rfl, hmod⟩ := hchildren _ _ rfl
    refine ⟨⟨_, [], []⟩, ?_, finish (WF.compressBelow hw) (find_compressBelow hw) hrep hmod⟩
    simp only [init, storageLoad, hkey, hroot, hrec, Node.parse_serialize, map_some, hq, bind_eq_bind, bind_some]
  · have hbare : (node [] none fun _ => .empty : PTree).WF [] := RadixTree.WF.bare (prefix_refl [])
    refine ⟨⟨.bare { location := rootLocation }, [], []⟩, ?_, finish hbare (fun l => ?_) ?_ fun _ => rfl⟩
    · simp only [init, storageLoad, hkey, hroot, bind_eq_bind, bind_some]
    · rw [hnone l, find_bare]
    · exact rep_new fun he => by rw [h.leaf [] he, hnone]

/-! ### Steps and runs -/

theorem inv_step (h : Inv hashCrypto keyPrefix s pr m) (op : TrieOp) (hop : pr.allows op = true) :
    ∃ s', op.step hashCrypto keyPrefix s = some s' ∧ Inv hashCrypto keyPrefix s' (pr.next op) (op.apply m) := by
  obtain ⟨frm, children, val, ch, h⟩ := h
  cases op with
  | set key value => exact inv_set h key value
  | delete key => exact inv_delete h key
  | updateHash =>
    obtain ⟨frm', children', h', -⟩ := inv_updateHash h
    exact ⟨_, rfl, frm', children', val, ch, h'⟩
  | addToDB => exact ⟨_, rfl, frm, children, val, ch, inv_addToDB h⟩
  | freeMemory depth =>
    simp only [Progress.allows, Bool.and_eq_true, Bool.not_eq_true'] at hop
    exact ⟨_, rfl, inv_freeMemory h hop.1 hop.2 depth⟩
  | init depth =>
    simp only [Progress.allows, Bool.and_eq_true, Bool.not_eq_true'] at hop
    obtain ⟨t, ht, hinv⟩ := inv_init (h.written hop.1 hop.2) h.wf h.find h.closed.1 depth
    have hpr : pr.next (.init depth) = {} := by
      obtain ⟨u, w⟩ := pr
      obtain ⟨rfl, rfl⟩ := hop
      rfl
    rw [hpr]
    exact ⟨⟨t, s.db⟩, by simp only [TrieOp.step, ht, bind_eq_bind, bind_some], hinv⟩

theorem inv_run (ops : List TrieOp) (h : Inv hashCrypto keyPrefix s pr m) (hops : admissible pr ops = true) :
    ∃ s' pr', ops.foldlM (TrieOp.step hashCrypto keyPrefix) s = some s' ∧
      Inv hashCrypto keyPrefix s' pr' (ops.foldl TrieOp.apply m) := by
  induction ops generalizing s pr m with
  | nil => exact ⟨s, pr, rfl, h⟩
  | cons op ops ih =>
    simp only [admissible, Bool.and_eq_true] at hops
    obtain ⟨s1, hs1, h1⟩ := inv_step h op hops.1
    obtain ⟨s', pr', hs', h'⟩ := ih h1 hops.2
    exact ⟨s', pr', by simp only [foldlM_cons, hs1, bind_eq_bind, bind_some, hs'], h'⟩

theorem synced_empty (hashCrypto : Bytes → Bytes) (h : ∀ x, d (keyPrefix ++ x) = none) :
    Synced hashCrypto keyPrefix d (.node [] none fun _ => .empty) := by
  refine ⟨fun l hl => ?_, fun l _ => (h _).trans (find_bare l).symm, Or.inr ⟨h _, find_bare⟩⟩
  rw [sub_bare hl]
  exact h _

/-- Every admissible run from a database without keys under the prefix ends, and keeps the invariant. -/
theorem inv_runTrie (h : ∀ x, d (keyPrefix ++ x) = none) (depth : ℤ) {ops : List TrieOp}
    (hops : admissible {} ops = true) :
    ∃ s pr, runTrie hashCrypto keyPrefix d depth ops = some s ∧ Inv hashCrypto keyPrefix s pr (finalMap ops) := by
  have hfind : ∀ l, (node [] none fun _ => .empty : PTree).find l = pathMap (fun _ => none) l := fun l => by
    rw [pathMap, ite_self, find_bare]
  obtain ⟨t, ht, hinv⟩ := inv_init (synced_empty hashCrypto h) (RadixTree.WF.bare (prefix_refl []))
    hfind (fun x hx => absurd (h x) hx) depth
  obtain ⟨s, pr, hs, hinv⟩ := inv_run ops hinv hops
  exact ⟨s, pr, by simp only [runTrie, ht, bind_eq_bind, bind_some, hs], hinv⟩

end
end OpenSesame
