import OpenSesame.Theorems.Trie.Digest

/-! # The tree in memory and in the database

`Rep db eff p c t` says that the pointer `p`, whose entry in its parent is `c`, stands for the tree
`t`: the nodes below a null pointer are read from `db`. -/

namespace OpenSesame
open Patricia RadixTree

section
variable (hashCrypto : Bytes → Bytes) (keyPrefix : Bytes)

def nodeKey (l : List Nibble) : Bytes :=
  location2DBkey keyPrefix (location l) false

def leafKey (l : List Nibble) : Bytes :=
  location2DBkey keyPrefix (location l) true

variable {keyPrefix} in
theorem nodeKey_inj {l l' : List Nibble} : nodeKey keyPrefix l = nodeKey keyPrefix l' ↔ l = l' := by
  simp [nodeKey, location2DBkey, location_inj]

variable {keyPrefix} in
theorem leafKey_inj {l l' : List Nibble} (h : l.length % 2 = 0) (h' : l'.length % 2 = 0) :
    leafKey keyPrefix l = leafKey keyPrefix l' ↔ l = l' := by
  refine ⟨fun e => pack_inj (h.trans h'.symm) ?_, fun e => by rw [e]⟩
  simpa [leafKey, location2DBkey, location] using e

variable {keyPrefix} in
theorem nodeKey_ne_leafKey (l l' : List Nibble) : nodeKey keyPrefix l ≠ leafKey keyPrefix l' := by
  have hpar : parityByte l ≠ leafPrefix := by
    unfold parityByte
    split <;> decide
  simp [nodeKey, leafKey, location2DBkey, location, hpar]

/-! ### Representation -/

structure Holds (d : Db) (t : PTree) : Prop where
  node : ∀ l, (t.sub l).isNode = true → d (nodeKey keyPrefix l) = record hashCrypto (t.sub l)
  leaf : ∀ l, (t.sub l).isNode = true → l.length % 2 = 0 → d (leafKey keyPrefix l) = t.find l

structure LeafOk (eff : Db) (frm : NodeFrm) (loc : List Nibble) (val : Option Bytes) : Prop where
  even : frm.leafDeleted = true ∨ frm.leaf ≠ none → loc.length % 2 = 0
  deleted : frm.leafDeleted = true → val = none
  set : frm.leafDeleted = false → ∀ v, frm.leaf = some v → val = some v
  kept : frm.leafDeleted = false → frm.leaf = none →
    frm.info.own = leafChild hashCrypto loc val ∧ (loc.length % 2 = 0 → eff (leafKey keyPrefix loc) = val)

/-- A node that is not modified has its entry in its parent and its records written, and nothing modified
    below it. -/
structure Settled (eff : Db) (frm : NodeFrm) (children : Nibble → Pointer) (c : Child) (loc : List Nibble)
    (val : Option Bytes) (ch : Nibble → PTree) : Prop where
  entry : c = digest hashCrypto (.node loc val ch)
  node : eff (nodeKey keyPrefix loc) = record hashCrypto (.node loc val ch)
  leaf : loc.length % 2 = 0 → eff (leafKey keyPrefix loc) = val
  below : ∀ i, (children i).modified = false
  own : frm.info.own = leafChild hashCrypto loc val

def Rep (db eff : Db) : Pointer → Child → PTree → Prop
  | .null, c, t =>
    t.Canonical ∧ c = digest hashCrypto t ∧ Holds hashCrypto keyPrefix db t ∧ Holds hashCrypto keyPrefix eff t
  | .node frm children, c, t => ∃ loc val ch, t = .node loc val ch ∧
    frm.location = location loc ∧ LeafOk hashCrypto keyPrefix eff frm loc val ∧
    (∀ i, Rep db eff (children i) (frm.info.branch i) (ch i)) ∧
    (frm.modified = false → Settled hashCrypto keyPrefix eff frm children c loc val ch)

variable {hashCrypto keyPrefix} {db eff : Db} {c : Child} {t : PTree} {p loc l : List Nibble} {val : Option Bytes}
  {ch : Nibble → PTree}

theorem Holds.empty (d : Db) : Holds hashCrypto keyPrefix d .empty :=
  ⟨fun _ h => by simp [isNode] at h, fun _ h => by simp [isNode] at h⟩

theorem Holds.branch {d : Db} (h : Holds hashCrypto keyPrefix d (.node loc val ch)) (hw : (RadixTree.node loc val ch).WF p)
    (i : Nibble) : Holds hashCrypto keyPrefix d (ch i) := by
  have hbelow : ∀ l, ((ch i).sub l).isNode = true → loc ++ [i] <+: l := by
    intro l hl
    by_contra ho
    rw [(hw.2 i).sub_outside ho] at hl
    cases hl
  refine ⟨fun l hl => ?_, fun l hl he => ?_⟩
  · have := h.node l (by rwa [RadixTree.sub_branch (hbelow l hl)])
    rwa [RadixTree.sub_branch (hbelow l hl)] at this
  · have := h.leaf l (by rwa [RadixTree.sub_branch (hbelow l hl)]) he
    rwa [RadixTree.find_branch (hbelow l hl)] at this

theorem Holds.top {d : Db} (h : Holds hashCrypto keyPrefix d (.node loc val ch)) :
    d (nodeKey keyPrefix loc) = record hashCrypto (.node loc val ch) ∧
    (loc.length % 2 = 0 → d (leafKey keyPrefix loc) = val) := by
  have hn : ((RadixTree.node loc val ch).sub loc).isNode = true := by simp [RadixTree.isNode]
  refine ⟨by simpa using h.node loc hn, fun he => ?_⟩
  have := h.leaf loc hn he
  rwa [RadixTree.find_self] at this

theorem rep_null_empty (db eff : Db) : Rep hashCrypto keyPrefix db eff .null {} .empty :=
  ⟨trivial, rfl, Holds.empty db, Holds.empty eff⟩

/-! ### Canonical trees in the database -/

theorem digest_inner (h : 1 < (topInfo hashCrypto (.node loc val ch)).branchCount) :
    digest hashCrypto (.node loc val ch) =
        ⟨location loc, hashCrypto (topInfo hashCrypto (.node loc val ch)).serialize, .inner⟩ ∧
      record hashCrypto (.node loc val ch) = some (topInfo hashCrypto (.node loc val ch)).serialize := by
  refine ⟨?_, ?_⟩
  · rw [digest_node, entryOf, if_neg (by omega), if_neg (by omega)]
  · rw [record, if_neg fun h' => by omega]

theorem digest_canonical (hashCrypto : Bytes → Bytes) (h : (node loc val ch).Canonical) :
    (∃ v, val = some v ∧ (∀ i, ch i = .empty) ∧ digest hashCrypto (.node loc val ch) = leafChild hashCrypto loc val) ∨
    (digest hashCrypto (.node loc val ch) =
        ⟨location loc, hashCrypto (topInfo hashCrypto (.node loc val ch)).serialize, .inner⟩ ∧
      record hashCrypto (.node loc val ch) = some (topInfo hashCrypto (.node loc val ch)).serialize) := by
  have hmem : ∀ i, i ∈ (topInfo hashCrypto (.node loc val ch)).live ↔ (ch i).isNode = true := by
    intro i
    have := digest_type hashCrypto (ch i)
    rw [compress_eq_self (h.2 i)] at this
    rw [mem_live, topInfo_node, Ne, infoOf, this, Bool.not_eq_false]
  cases val with
  | some v =>
    rcases hl : (topInfo hashCrypto (.node loc (some v) ch)).live with _ | ⟨i, r⟩
    · refine Or.inl ⟨v, rfl, fun i => ?_, ?_⟩
      · rw [← isNode_eq_false, Bool.eq_false_iff]
        simp [← hmem, hl]
      · have hcount : (topInfo hashCrypto (.node loc (some v) ch)).branchCount = 1 := by
          rw [topInfo_node] at hl ⊢
          rw [branchCount_infoOf, hl]
          rfl
        simp only [digest_node, entryOf, hcount, Nat.one_ne_zero, ↓reduceIte, Node.onlyBranch, hl, List.getLast?_nil]
        rfl
    · refine Or.inr (digest_inner ?_)
      rw [topInfo_node] at hl ⊢
      rw [branchCount_infoOf, hl]
      simp
  | none =>
    obtain ⟨i, j, hij, hi, hj⟩ := h.1 rfl
    refine Or.inr (digest_inner ?_)
    have htwo : 2 ≤ (topInfo hashCrypto (.node loc none ch)).live.length :=
      two_le_live.mpr ⟨i, j, hij, (hmem i).mpr hi, (hmem j).mpr hj⟩
    rw [topInfo_node] at htwo ⊢
    rw [branchCount_infoOf]
    omega

theorem rep_loaded (hw : (node loc val ch).WF p) (h : Rep hashCrypto keyPrefix db eff .null c (.node loc val ch)) :
    Rep hashCrypto keyPrefix db eff
      (.bare { location := location loc, modified := false, info := topInfo hashCrypto (.node loc val ch) }) c
      (.node loc val ch) := by
  obtain ⟨hc, hentry, hdb, heff⟩ := h
  refine ⟨loc, val, ch, rfl, rfl, ⟨by simp, nofun, nofun, fun _ _ => ⟨rfl, heff.top.2⟩⟩, fun i => ?_, fun _ => ?_⟩
  · exact ⟨hc.2 i, rfl, hdb.branch hw i, heff.branch hw i⟩
  · exact ⟨hentry, heff.top.1, heff.top.2, fun _ => rfl, rfl⟩

theorem childMayFromDB_spec {frm : NodeFrm} {children : Nibble → Pointer} {i : Nibble} (hw : t.WF p)
    (h : Rep hashCrypto keyPrefix db eff (children i) (frm.info.branch i) t) :
    ∃ q, childMayFromDB keyPrefix db frm children i = some q ∧
      Rep hashCrypto keyPrefix db eff q (frm.info.branch i) t ∧ q.modified = (children i).modified ∧
      (q = .null → t = .empty ∧ children i = .null) := by
  cases hch : children i with
  | node f g =>
    rw [hch] at h
    exact ⟨.node f g, by simp [childMayFromDB, hch], h, rfl, by rintro ⟨⟩⟩
  | null =>
    rw [hch] at h
    cases t with
    | empty => exact ⟨.null, by simp [childMayFromDB, hch, h.2.1, digest], h, rfl, fun _ => ⟨rfl, rfl⟩⟩
    | node loc val ch =>
      have hload := rep_loaded hw h
      obtain ⟨hc, hentry, hdb, -⟩ := h
      rcases digest_canonical hashCrypto hc with ⟨v, rfl, hempty, hd⟩ | ⟨hd, hrec⟩
      · have hinfo : topInfo hashCrypto (.node loc (some v) ch) = { own := leafChild hashCrypto loc (some v) } := by
          simp [topInfo, infoOf, hempty, digest]
        rw [hinfo] at hload
        refine ⟨.bare { location := location loc, modified := false, info := { own := leafChild hashCrypto loc (some v) } },
          ?_, hload, rfl, by rintro ⟨⟩⟩
        simp [childMayFromDB, hch, hentry, hd, leafChild]
      · have hrecord : db (location2DBkey keyPrefix (location loc) false) =
            some (topInfo hashCrypto (.node loc val ch)).serialize := hdb.top.1.trans hrec
        refine ⟨_, ?_, hload, rfl, by rintro ⟨⟩⟩
        simp [childMayFromDB, hch, hentry, hd, storageLoad, hrecord, Node.parse_serialize]

end
end OpenSesame
