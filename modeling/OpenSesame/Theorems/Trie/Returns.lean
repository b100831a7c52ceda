import OpenSesame.Theorems.Trie.Run

/-! # What `Set` and `Delete` return

Both answer by whether they meet a node at the location of the key. -/

namespace OpenSesame
open Patricia RadixTree Option

def NodeFrm.valued (frm : NodeFrm) : Bool :=
  !frm.leafDeleted && (frm.leaf.isSome || frm.info.own.childtype != .none)

/-- The node at a location, on the way that `SetItem` and `DeleteItem` take to it. -/
def nodeAt (keyPrefix : Bytes) (db : Db) (location : Location) : ℕ → Pointer → Option NodeFrm
  | 0, _ => none
  | _, .null => none
  | fuel + 1, .node frm children =>
    if frm.location = location then some frm
    else do
      let branch ← nextBranch (commonPrefix frm.location location) location
      let node2 ← childMayFromDB keyPrefix db frm children branch
      match node2 with
      | .null => none
      | .node frm2 children2 =>
        if frm2.location = commonPrefix frm2.location location then nodeAt keyPrefix db location fuel (.node frm2 children2)
        else none

def KVTrie.nodeAt (t : KVTrie) (keyPrefix : Bytes) (db : Db) (key : Bytes) : Option NodeFrm :=
  OpenSesame.nodeAt keyPrefix db (key2Location key) (pathFuel (key2Location key)) t.root

section
variable {hash : Bytes → Bytes} {pre : Bytes} {db eff : Db} {c : Child} {p k loc : List Nibble}
  {val : Option Bytes} {ch : Nibble → PTree} {frm : NodeFrm} {children : Nibble → Pointer}

theorem LeafOk.valued_iff (h : LeafOk hash pre eff frm loc val) : frm.valued = true ↔ val ≠ none := by
  rcases hdel : frm.leafDeleted with - | -
  · rcases hleaf : frm.leaf with - | v
    · obtain ⟨hown, -⟩ := h.kept hdel hleaf
      simp [NodeFrm.valued, hdel, hleaf, hown]
    · simp [NodeFrm.valued, hdel, hleaf, h.set hdel v hleaf]
  · simp [NodeFrm.valued, hdel, h.deleted hdel]

theorem nodeAt_spec {fuel : ℕ} (h : Rep hash pre db eff (.node frm children) c (.node loc val ch))
    (hw : (node loc val ch).WF p) (hk : loc <+: k) (hfuel : k.length - loc.length < fuel) :
    (nodeAt pre db (location k) fuel (.node frm children)).isSome = ((node loc val ch).sub k).isNode ∧
      ∀ found, nodeAt pre db (location k) fuel (.node frm children) = some found →
        (found.valued = true ↔ (node loc val ch).find k ≠ none) := by
  induction fuel generalizing frm children c loc val ch p with
  | zero => omega
  | succ fuel ih =>
    have hloc := h.location
    rcases place_cases loc k with rfl | ⟨i, hi⟩ | ho
    · obtain ⟨_, _, _, e, -, hleaf, -⟩ := id h
      cases e
      have hhere : nodeAt pre db (location k) (fuel + 1) (.node frm children) = some frm := by
        simp only [nodeAt, hloc, ↓reduceIte]
      rw [hhere, sub_self, find_self]
      refine ⟨rfl, fun found hfound => ?_⟩
      cases hfound
      exact hleaf.valued_iff
    · obtain ⟨q, hq, hrep, -, hnull⟩ := childMayFromDB_spec (hw.2 i) (h.child i)
      have hne : frm.location ≠ location k := hloc ▸ location_ne_of_branch hi
      have hnb : nextBranch (commonPrefix frm.location (location k)) (location k) = some i := hloc ▸ descend hi
      rw [sub_branch hi, find_branch hi]
      cases q with
      | null =>
        obtain ⟨hempty, -⟩ := hnull rfl
        have hnone : nodeAt pre db (location k) (fuel + 1) (.node frm children) = none := by
          simp only [nodeAt, hne, ↓reduceIte, hnb, hq, bind_eq_bind, bind_some]
        rw [hnone, hempty]
        exact ⟨rfl, nofun⟩
      | node frm2 children2 =>
        obtain ⟨loc2, val2, ch2, hch, hloc2, -⟩ := id hrep
        have hw2 : (node loc2 val2 ch2).WF (loc ++ [i]) := hch ▸ hw.2 i
        have hcommon : commonPrefix frm2.location (location k) = location (lcp loc2 k) := by
          rw [hloc2, commonPrefix_location]
        rw [hch]
        by_cases hdown : loc2 <+: k
        · have hthere : frm2.location = commonPrefix frm2.location (location k) := by
            rw [hcommon, hloc2, lcp_eq_left.mpr hdown]
          have hnext : nodeAt pre db (location k) (fuel + 1) (.node frm children) =
              nodeAt pre db (location k) fuel (.node frm2 children2) := by
            simp only [nodeAt, hne, ↓reduceIte, hnb, hq, ← hthere, bind_eq_bind, bind_some]
          have hlt := length_lt_of_branch hi
          have hlt2 := length_lt_of_branch hw2.1
          rw [hnext]
          exact ih (hch ▸ hrep) hw2 hdown (by omega)
        · have hthere : frm2.location ≠ commonPrefix frm2.location (location k) := by
            rw [hcommon, hloc2, Ne, location_inj, eq_comm, lcp_eq_left]
            exact hdown
          have hnone : nodeAt pre db (location k) (fuel + 1) (.node frm children) = none := by
            simp only [nodeAt, hne, ↓reduceIte, hnb, hq, hthere, bind_eq_bind, bind_some]
          rw [hnone, sub_outside hdown]
          exact ⟨rfl, nofun⟩
    · exact absurd hk ho

theorem isNode_iff_valued {s : TrieState} {pr : Progress} {m : Bytes → Option Bytes}
    (h : InvAt hash pre s pr m frm children val ch) {key : Bytes} :
    (((node [] val ch).sub (nibbles key)).isNode = true ↔ m key ≠ none) ↔
      ∀ found, s.trie.nodeAt pre s.db key = some found → found.valued = true := by
  obtain ⟨hsome, hfind⟩ := nodeAt_spec h.rep h.wf (k := nibbles key) List.nil_prefix (pathFuel_enough key)
  rw [h.find, pathMap_nibbles] at hfind
  rw [KVTrie.nodeAt, h.root, ← location_nibbles, ← hsome]
  rcases hat : nodeAt pre s.db (location (nibbles key)) (pathFuel (location (nibbles key)))
      (.node frm children) with - | found
  · rw [hat] at hsome
    have hsub := isNode_eq_false.mp hsome.symm
    have hnone := find_eq_of_sub hsub
    rw [h.find, pathMap_nibbles] at hnone
    simp [hnone]
  · simp [hfind found hat]

end

/-- After any operations, with memory freed and the trie initialized again only when every change has been hashed and
    written: `Set` of a key returns true exactly if the key was absent, and `Delete` of it exactly if it was present,
    just when a node at the location of the key, if there is one, has a value. -/
theorem trie_return_values (hashCrypto : Bytes → Bytes) (keyPrefix : Bytes) (d : Db)
    (h : ∀ x, d (keyPrefix ++ x) = none) (depth : ℤ) (ops : List TrieOp) (ha : admissible {} ops = true) :
    ∃ s, runTrie hashCrypto keyPrefix d depth ops = some s ∧
      ∀ k, ((∀ v, ∃ b t, s.trie.set keyPrefix s.db k v = some (b, t) ∧ (b = true ↔ finalMap ops k = none)) ∧
          ∃ b t, s.trie.delete keyPrefix s.db k = some (b, t) ∧ (b = true ↔ finalMap ops k ≠ none)) ↔
        ∀ found, s.trie.nodeAt keyPrefix s.db k = some found → found.valued = true := by
  obtain ⟨s, pr, hrun, frm, children, val, ch, hinv⟩ : ∃ s pr, runTrie hashCrypto keyPrefix d depth ops = some s ∧
      Inv hashCrypto keyPrefix s pr (finalMap ops) := inv_runTrie h depth ha
  refine ⟨s, hrun, fun k => ?_⟩
  rw [← isNode_iff_valued hinv]
  obtain ⟨b, frm', children', hdel, hb, -⟩ :=
    deleteItem_spec (length_nibbles k) hinv.rep hinv.wf List.nil_prefix (pathFuel_enough k)
  rw [location_nibbles] at hdel
  have hdelete : s.trie.delete keyPrefix s.db k = some (b, { s.trie with root := .node frm' children' }) := by
    simp only [KVTrie.delete, hinv.root, hdel, bind_eq_bind, bind_some]
  constructor
  · rintro ⟨-, b', t, hdelete', hb'⟩
    rw [hdelete] at hdelete'
    cases hdelete'
    rw [← hb, hb']
  · refine fun hnode => ⟨fun v => ?_, b, _, hdelete, by rw [hb, hnode]⟩
    have hside : NoLeafBeside keyPrefix s.eff [] (.node [] val ch) :=
      fun l _ hl he => hinv.beside l hl _ (Or.inr ⟨he, rfl⟩)
    obtain ⟨b, frm', children', hset, hb, -⟩ :=
      setItem_spec (v := v) (length_nibbles k) hinv.rep hinv.wf hside List.nil_prefix (pathFuel_enough k)
    rw [location_nibbles] at hset
    refine ⟨b, { s.trie with root := .node frm' children' }, ?_, ?_⟩
    · simp only [KVTrie.set, hinv.root, hset, bind_eq_bind, bind_some]
    · rw [hb, Bool.not_eq_true', ← Bool.not_eq_true, hnode, not_not]

/-- Two keys that part in their second byte, written and freed from memory. -/
def twoKeys : List TrieOp :=
  [.set [0x12, 0x34] [1], .set [0x12, 0x56] [2], .updateHash, .addToDB, .freeMemory 0]

theorem trie_return_values_two : ∃ s, runTrie (List.take 4) [7] (fun _ => none) 0 twoKeys = some s ∧
      (∃ b t, s.trie.set [7] s.db [0x12, 0x35] [3] = some (b, t) ∧ (b = true ↔ finalMap twoKeys [0x12, 0x35] = none)) ∧
      ∃ b t, s.trie.delete [7] s.db [0x12, 0x34] = some (b, t) ∧ (b = true ↔ finalMap twoKeys [0x12, 0x34] ≠ none) := by
  obtain ⟨s, hrun, hret⟩ := trie_return_values (List.take 4) [7] (fun _ => none) (fun _ => rfl) 0 twoKeys (by decide)
  obtain rfl := some.inj hrun
  exact ⟨_, hrun, ((hret [0x12, 0x35]).mpr nofun).1 [3],
    ((hret [0x12, 0x34]).mpr fun _ hfound => by cases hfound; rfl).2⟩

/-- A key that was deleted: `Set` returns false and `Delete` true, though the key is absent. -/
theorem trie_returns_after_delete :
    ∃ s, runTrie (List.take 4) [7] (fun _ => none) 0 [.set [0x12] [1], .delete [0x12]] = some s ∧
      finalMap [.set [0x12] [1], .delete [0x12]] [0x12] = none ∧
      (∃ t, s.trie.set [7] s.db [0x12] [2] = some (false, t)) ∧ ∃ t, s.trie.delete [7] s.db [0x12] = some (true, t) :=
  ⟨_, rfl, by decide, ⟨_, rfl⟩, _, rfl⟩

end OpenSesame
