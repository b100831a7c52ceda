import OpenSesame.Theorems.Trie.Run

/-! # What a hashed and written trie is

After `UpdateHash` and the write of the batch, the root hash and the records under the prefix are functions of
the map, and `Get` reads the map. -/

namespace OpenSesame
open Patricia RadixTree TrieOp List

section
variable {hash : Bytes → Bytes} {pre : Bytes} {d : Db} {m : Bytes → Option Bytes} {val : Option Bytes}
  {ch : Nibble → PTree} {t : PTree} {p l : List Nibble}

theorem run_final (hash : Bytes → Bytes) (h : ∀ x, d (pre ++ x) = none) (depth : ℤ) {ops : List TrieOp}
    (hops : admissible {} ops = true) :
    ∃ s pr frm children val ch, runTrie hash pre d depth (ops ++ [.updateHash, .addToDB]) = some s ∧
      InvAt hash pre s pr (finalMap ops) frm children val ch ∧ frm.modified = false ∧
      s.trie.rootHash = hash (topInfo hash (.node [] val ch)).serialize ∧
      Synced hash pre s.db (.node [] val ch) ∧
      s.db (nodeKey pre []) = record hash (.node [] val ch) := by
  obtain ⟨s, pr, hs, frm, children, val, ch, hinv⟩ := inv_runTrie h depth hops
  obtain ⟨frm', children', hhash, hmod, hroot, hrec⟩ := inv_updateHash hinv
  have hfinal := inv_addToDB hhash
  refine ⟨_, _, frm', children', val, ch, ?_, hfinal, hmod, hroot, hfinal.written rfl rfl, hrec⟩
  simp only [runTrie, Option.bind_eq_bind, Option.bind_eq_some_iff] at hs ⊢
  obtain ⟨t, ht, hs⟩ := hs
  refine ⟨t, ht, ?_⟩
  rw [foldlM_append, hs]
  rfl

/-! ### Which records there are -/

theorem mem_live_iff_below (hash : Bytes → Bytes) (hw : (node l val ch).WF p) {i : Nibble} :
    i ∈ (topInfo hash (.node l val ch)).live ↔ RadixTree.Below (node l val ch).find (l ++ [i]) := by
  have htype : i ∈ (topInfo hash (.node l val ch)).live ↔ ∃ k, (ch i).find k ≠ none := by
    rw [mem_live, topInfo_node, infoOf, Ne, digest_type, Bool.not_eq_false, isNode_compress_iff (hw.2 i)]
  rw [htype]
  constructor
  · rintro ⟨k, hk⟩
    have hik := (hw.2 i).prefix_of_find hk
    exact ⟨k, hik, by rwa [find_branch hik]⟩
  · rintro ⟨k, hik, hk⟩
    exact ⟨k, by rwa [find_branch hik] at hk⟩

theorem record_node_ne_none (hw : (node l val ch).WF p) (hl : l ≠ []) :
    record hash (.node l val ch) ≠ none ↔ RadixTree.Branches (node l val ch).find l := by
  have hcount : record hash (.node l val ch) ≠ none ↔ 1 < (topInfo hash (.node l val ch)).branchCount := by
    rw [record]
    split
    · rename_i h
      simpa using h.2
    · rename_i h
      have : ¬ (topInfo hash (.node l val ch)).branchCount ≤ 1 := fun h' => h ⟨hl, h'⟩
      simpa using this
  rw [hcount, topInfo_node, branchCount_infoOf, ← topInfo_node, RadixTree.Branches, find_self]
  simp only [← mem_live_iff_below hash hw, ← two_le_live]
  cases val with
  | none =>
    simp only [↓reduceIte, Nat.zero_add, ne_eq, not_true_eq_false, false_and, or_false]
    omega
  | some v =>
    rw [← length_pos_iff_exists_mem]
    simp only [reduceCtorEq, ↓reduceIte, ne_eq, not_false_eq_true, true_and]
    omega

theorem record_ne_none_iff (hw : t.WF p) (hl : l ≠ []) :
    record hash (t.sub l) ≠ none ↔ RadixTree.Branches t.find l := by
  -- at a node, the map below is that of the subtree
  have hsame : ∀ {val ch}, t.sub l = .node l val ch →
      (RadixTree.Branches (t.sub l).find l ↔ RadixTree.Branches t.find l) := by
    intro val ch hs
    have hnode : (t.sub l).isNode = true := by rw [hs]; rfl
    have hbelow : ∀ i, RadixTree.Below (t.sub l).find (l ++ [i]) ↔ RadixTree.Below t.find (l ++ [i]) := fun i =>
      ⟨fun ⟨k, hik, hk⟩ => ⟨k, hik, by rwa [find_sub hnode (prefix_of_branch hik)] at hk⟩,
        fun ⟨k, hik, hk⟩ => ⟨k, hik, by rwa [find_sub hnode (prefix_of_branch hik)]⟩⟩
    simp only [RadixTree.Branches, hbelow, find_sub hnode (prefix_refl l)]
  cases hs : t.sub l with
  | empty =>
    refine ⟨fun h => absurd rfl h, fun h => ?_⟩
    have := isNode_sub_of_branches hw h
    rw [hs] at this
    cases this
  | node loc val ch =>
    obtain rfl := loc_of_sub hs
    rw [← hsame hs, hs]
    exact record_node_ne_none (hs ▸ hw.sub loc) hl

/-- The records a map has: the root, the locations where it has two branches, and a leaf for each key. -/
def IsRecord (m : Bytes → Option Bytes) (x : Bytes) : Prop :=
  x = rootLocation ∨ (∃ l, l ≠ [] ∧ RadixTree.Branches (pathMap m) l ∧ x = location l) ∨ ∃ k, m k ≠ none ∧ x = leafPrefix :: k

theorem leafKey_nibbles (k : Bytes) : leafKey pre (nibbles k) = pre ++ leafPrefix :: k := by
  simp [leafKey, location2DBkey, location, pack_nibbles]

theorem nodeKey_eq : nodeKey pre l = pre ++ location l := rfl

theorem synced_isRecord (hs : Synced hash pre d (.node [] val ch)) (hw : (node [] val ch).WF [])
    (hroot : d (nodeKey pre []) = record hash (.node [] val ch)) (hclosed : Closed pre d)
    (hfind : ∀ l, (node [] val ch).find l = pathMap m l) (x : Bytes) :
    d (pre ++ x) ≠ none ↔ IsRecord m x := by
  have hfind' : (node [] val ch).find = pathMap m := funext hfind
  constructor
  · intro hx
    obtain ⟨l, hl | ⟨he, hl⟩⟩ := hclosed x hx
    · rw [hl] at hx
      obtain rfl : x = location l := append_cancel_left hl
      by_cases hnil : l = []
      · exact Or.inl (by rw [hnil]; rfl)
      · rw [hs.node l hnil, record_ne_none_iff hw hnil, hfind'] at hx
        exact Or.inr (Or.inl ⟨l, hnil, hx, rfl⟩)
    · rw [hl, hs.leaf l he, hfind, ← nibbles_pack he, pathMap_nibbles] at hx
      rw [← nibbles_pack he, leafKey_nibbles] at hl
      exact Or.inr (Or.inr ⟨pack l, hx, append_cancel_left hl⟩)
  · rintro (rfl | ⟨l, hnil, hl, rfl⟩ | ⟨k, hk, rfl⟩)
    · have : d (pre ++ rootLocation) = record hash (.node [] val ch) := hroot
      rw [this, record]
      simp
    · rw [← nodeKey_eq, hs.node l hnil, record_ne_none_iff hw hnil, hfind']
      exact hl
    · rw [← leafKey_nibbles, hs.leaf _ (length_nibbles k), hfind, pathMap_nibbles]
      exact hk

/-! ### History independence -/

/-- Two runs that leave the same map, each followed by `UpdateHash` and the write of the batch, end with the
    same root hash and the same records under the prefix: the root, one for each location with two branches,
    and the leaf of each key with its value. -/
theorem trie_history_independent (hashCrypto : Bytes → Bytes) (keyPrefix : Bytes) (d₁ d₂ : Db)
    (h₁ : ∀ x, d₁ (keyPrefix ++ x) = none) (h₂ : ∀ x, d₂ (keyPrefix ++ x) = none) (depth₁ depth₂ : ℤ)
    (ops₁ ops₂ : List TrieOp) (ha₁ : admissible {} ops₁ = true) (ha₂ : admissible {} ops₂ = true)
    (hmap : finalMap ops₁ = finalMap ops₂) :
    ∃ s₁ s₂, runTrie hashCrypto keyPrefix d₁ depth₁ (ops₁ ++ [.updateHash, .addToDB]) = some s₁ ∧
      runTrie hashCrypto keyPrefix d₂ depth₂ (ops₂ ++ [.updateHash, .addToDB]) = some s₂ ∧
      s₁.trie.rootHash = s₂.trie.rootHash ∧
      (∀ x, s₁.db (keyPrefix ++ x) = s₂.db (keyPrefix ++ x)) ∧
      (∀ x, s₁.db (keyPrefix ++ x) ≠ none ↔ IsRecord (finalMap ops₁) x) ∧
      ∀ k, s₁.db (keyPrefix ++ leafPrefix :: k) = finalMap ops₁ k := by
  obtain ⟨s₁, _, _, _, val₁, ch₁, hrun₁, hinv₁, -, hhash₁, hsync₁, hroot₁⟩ := run_final hashCrypto h₁ depth₁ ha₁
  obtain ⟨s₂, _, _, _, val₂, ch₂, hrun₂, hinv₂, -, hhash₂, hsync₂, hroot₂⟩ := run_final hashCrypto h₂ depth₂ ha₂
  have hfind : ∀ l, (node [] val₁ ch₁).find l = (node [] val₂ ch₂).find l := fun l => by
    rw [hinv₁.find, hinv₂.find, hmap]
  have htop : topInfo hashCrypto (.node [] val₁ ch₁) = topInfo hashCrypto (.node [] val₂ ch₂) := by
    rw [← topInfo_compressBelow (.node [] val₁ ch₁), compressBelow_eq_of_find hinv₁.wf hinv₂.wf hfind,
      topInfo_compressBelow]
  have hrec := synced_isRecord hsync₁ hinv₁.wf hroot₁ hinv₁.closed.1 hinv₁.find
  -- the second database is an image of the first tree
  have hsync := hsync₂.of_find hinv₂.wf hinv₁.wf hfind
  have hrec₂ := synced_isRecord hsync hinv₁.wf (hroot₂.trans (record_congr htop).symm) hinv₂.closed.1 hinv₁.find
  refine ⟨s₁, s₂, hrun₁, hrun₂, by rw [hhash₁, hhash₂, htop], fun x => ?_, hrec, fun k => ?_⟩
  · by_cases hx : IsRecord (finalMap ops₁) x
    · rcases hx with rfl | ⟨l, hnil, -, rfl⟩ | ⟨k, -, rfl⟩
      · exact hroot₁.trans ((record_congr htop).trans hroot₂.symm)
      · exact (hsync₁.node l hnil).trans (hsync.node l hnil).symm
      · rw [← leafKey_nibbles, hsync₁.leaf _ (length_nibbles k), hsync.leaf _ (length_nibbles k)]
    · have e₁ := not_not.mp ((hrec x).not.mpr hx)
      have e₂ := not_not.mp ((hrec₂ x).not.mpr hx)
      rw [e₁, e₂]
  · rw [← leafKey_nibbles, hsync₁.leaf _ (length_nibbles k), hinv₁.find, pathMap_nibbles]

/-- Three keys, of which one begins the others and two differ in their last nibble. -/
def directOps : List TrieOp :=
  [.set [0x12] [1], .set [0x12, 0x34] [2], .set [0x12, 0x35] [3]]

/-- The same map by way of a deletion, writes, freed memory and a new initialization. -/
def detourOps : List TrieOp :=
  [.set [0x12, 0x35] [3], .set [0x10] [9], .set [0x12] [1], .updateHash, .addToDB, .freeMemory 1, .delete [0x10],
    .updateHash, .addToDB, .init 1, .set [0x12, 0x34] [2]]

theorem trie_history_independent_detour :
    ∃ s₁ s₂, runTrie (List.take 4) [7] (fun _ => none) 0 (directOps ++ [.updateHash, .addToDB]) = some s₁ ∧
      runTrie (List.take 4) [7] (fun _ => none) 2 (detourOps ++ [.updateHash, .addToDB]) = some s₂ ∧
      s₁.trie.rootHash = s₂.trie.rootHash ∧ (∀ x, s₁.db ([7] ++ x) = s₂.db ([7] ++ x)) ∧
      s₁.db ([7] ++ [2, 0x12, 0x34]) = some [2] := by
  have hmap : finalMap directOps = finalMap detourOps := by
    funext k
    simp only [finalMap, directOps, detourOps, foldl_cons, foldl_nil, apply, Function.update_apply]
    split_ifs <;> simp_all
  obtain ⟨s₁, s₂, h₁, h₂, hhash, hdb, -, hleaf⟩ := trie_history_independent (List.take 4) [7] (fun _ => none)
    (fun _ => none) (fun _ => rfl) (fun _ => rfl) 0 2 directOps detourOps (by decide) (by decide) hmap
  exact ⟨s₁, s₂, h₁, h₂, hhash, hdb, (hleaf [0x12, 0x34]).trans (by decide)⟩

/-! ### `Get` -/

def TrieOp.key? : TrieOp → Option Bytes
  | .set key _ => some key
  | .delete key => some key
  | _ => none

def lastOn (k : Bytes) (ops : List TrieOp) : Option TrieOp :=
  ops.reverse.find? fun op => op.key? == some k

theorem lastOn_concat (k : Bytes) (ops : List TrieOp) (op : TrieOp) :
    lastOn k (ops ++ [op]) = if op.key? = some k then some op else lastOn k ops := by
  by_cases h : op.key? = some k <;> simp [lastOn, h]

theorem finalMap_lastOn (k : Bytes) (ops : List TrieOp) :
    (∀ v, finalMap ops k = some v ↔ lastOn k ops = some (.set k v)) ∧
    (finalMap ops k = none ↔ lastOn k ops = none ∨ lastOn k ops = some (.delete k)) := by
  induction ops using reverseRecOn with
  | nil => simp [finalMap, lastOn]
  | append_singleton ops op ih =>
    have hmap : finalMap (ops ++ [op]) = op.apply (finalMap ops) := by simp [finalMap]
    rw [hmap, lastOn_concat]
    cases op with
    | set key value =>
      by_cases hk : key = k
      · simp [apply, key?, hk]
      · simpa [apply, key?, hk, Function.update_of_ne (Ne.symm hk)] using ih
    | delete key =>
      by_cases hk : key = k
      · simp [apply, key?, hk]
      · simpa [apply, key?, hk, Function.update_of_ne (Ne.symm hk)] using ih
    | updateHash => simpa [apply, key?] using ih
    | addToDB => simpa [apply, key?] using ih
    | freeMemory depth => simpa [apply, key?] using ih
    | init depth => simpa [apply, key?] using ih

/-- After `UpdateHash` and the write of the batch, `Get` of any key returns, with the value of the last `Set`
    of the key if that is its last operation and with false if there is none or it is a `Delete`. -/
theorem trie_get_last_set (hashCrypto : Bytes → Bytes) (keyPrefix : Bytes) (d : Db)
    (h : ∀ x, d (keyPrefix ++ x) = none) (depth : ℤ) (ops : List TrieOp) (ha : admissible {} ops = true) :
    ∃ s, runTrie hashCrypto keyPrefix d depth (ops ++ [.updateHash, .addToDB]) = some s ∧
      ∀ k, ∃ r t, s.trie.get keyPrefix s.db k = some (r, t) ∧ (∀ v, r = some v ↔ lastOn k ops = some (.set k v)) ∧
        (r = none ↔ lastOn k ops = none ∨ lastOn k ops = some (.delete k)) := by
  obtain ⟨s, _, frm, children, val, ch, hrun, hinv, hmod, -, hsync, -⟩ := run_final hashCrypto h depth ha
  refine ⟨s, hrun, fun k => ?_⟩
  obtain ⟨b, children', hex, -, hfalse⟩ := existsKey_spec hinv.rep hinv.wf hmod nil_prefix (pathFuel_enough k)
  have hleaf : storageGetLeaf keyPrefix s.db (key2Location k) = finalMap ops k := by
    rw [storageGetLeaf, ← location_nibbles]
    exact (hsync.leaf _ (length_nibbles k)).trans ((hinv.find _).trans (pathMap_nibbles _ k))
  have hget : s.trie.get keyPrefix s.db k = some (finalMap ops k, { s.trie with root := .node frm children' }) := by
    rw [location_nibbles] at hex
    simp only [KVTrie.get, hinv.root, hex, Option.bind_eq_bind, Option.bind_some, hleaf]
    cases hb : b with
    | true => rfl
    | false =>
      have hnone := hfalse hb
      rw [hinv.find, pathMap_nibbles] at hnone
      simp [hnone]
  exact ⟨_, _, hget, finalMap_lastOn k ops⟩

theorem trie_get_last_set_detour :
    ∃ s, runTrie (List.take 4) [7] (fun _ => none) 2 (detourOps ++ [.updateHash, .addToDB]) = some s ∧
      (∃ t, s.trie.get [7] s.db [0x12, 0x34] = some (some [2], t)) ∧ ∃ t, s.trie.get [7] s.db [0x10] = some (none, t) := by
  obtain ⟨s, hrun, hget⟩ := trie_get_last_set (List.take 4) [7] (fun _ => none) (fun _ => rfl) 2 detourOps (by decide)
  obtain ⟨r, t, ht, hr, -⟩ := hget [0x12, 0x34]
  obtain ⟨r', t', ht', -, hr'⟩ := hget [0x10]
  obtain rfl : r = some [2] := (hr [2]).mpr (by decide)
  obtain rfl : r' = none := hr'.mpr (by decide)
  exact ⟨s, hrun, ⟨t, ht⟩, t', ht'⟩

end
end OpenSesame
