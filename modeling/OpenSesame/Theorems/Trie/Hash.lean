import OpenSesame.Theorems.Trie.Ops

/-! # `update_hash` on the represented tree

The call leaves no node modified, returns the entry of the tree and writes, to the database with the batch
applied, exactly the records of the nodes it visits. -/

namespace OpenSesame
open Patricia RadixTree Function List

section
variable {hash : Bytes → Bytes} {pre : Bytes} {db eff eff' : Db} {c : Child} {t : PTree}
  {p l l' loc : List Nibble} {val : Option Bytes} {ch : Nibble → PTree} {frm : NodeFrm}
  {children : Nibble → Pointer} {i j : Nibble} {q : Pointer} {key : Bytes}

def KeyAt (keyPrefix : Bytes) (l : List Nibble) (key : Bytes) : Prop :=
  key = nodeKey keyPrefix l ∨ (l.length % 2 = 0 ∧ key = leafKey keyPrefix l)

theorem KeyAt.unique (h : KeyAt pre l key) (h' : KeyAt pre l' key) : l = l' := by
  rcases h with rfl | ⟨he, rfl⟩ <;> rcases h' with e | ⟨he', e⟩
  · exact nodeKey_inj.mp e
  · exact absurd e (nodeKey_ne_leafKey _ _)
  · exact absurd e.symm (nodeKey_ne_leafKey _ _)
  · exact (leafKey_inj he he').mp e

def KeyOf (keyPrefix : Bytes) (t : PTree) (key : Bytes) : Prop :=
  ∃ l, (t.sub l).isNode = true ∧ KeyAt keyPrefix l key

theorem prefix_of_isNode (hw : t.WF p) (h : (t.sub l).isNode = true) : p <+: l := by
  by_contra ho
  rw [hw.sub_outside ho] at h
  cases h

theorem keyOf_top (h : KeyAt pre loc key) : KeyOf pre (.node loc val ch) key := ⟨loc, by simp [isNode], h⟩

theorem KeyOf.up (hw : (node loc val ch).WF p) (h : KeyOf pre (ch i) key) : KeyOf pre (.node loc val ch) key := by
  obtain ⟨l, hl, hk⟩ := h
  exact ⟨l, by rwa [sub_branch (prefix_of_isNode (hw.2 i) hl)], hk⟩

theorem KeyOf.ne_top (hw : (node loc val ch).WF p) (h : KeyOf pre (ch i) key) : ¬ KeyAt pre loc key := fun hk => by
  obtain ⟨l, hl, hk'⟩ := h
  exact ne_of_branch (prefix_of_isNode (hw.2 i) hl) (hk'.unique hk)

theorem KeyOf.disjoint (hw : (node loc val ch).WF p) (hij : i ≠ j) (h : KeyOf pre (ch i) key) :
    ¬ KeyOf pre (ch j) key := by
  rintro ⟨l', hl', hk'⟩
  obtain ⟨l, hl, hk⟩ := h
  obtain rfl := hk.unique hk'
  exact hij (branch_unique (prefix_of_isNode (hw.2 i) hl) (prefix_of_isNode (hw.2 j) hl'))

theorem Holds.frame (h : Holds hash pre eff t) (hf : ∀ key, KeyOf pre t key → eff' key = eff key) :
    Holds hash pre eff' t where
  node l hl := (hf _ ⟨l, hl, Or.inl rfl⟩).trans (h.node l hl)
  leaf l hl he := (hf _ ⟨l, hl, Or.inr ⟨he, rfl⟩⟩).trans (h.leaf l hl he)

theorem Rep.frame (h : Rep hash pre db eff q c t) (hw : t.WF p)
    (hf : ∀ key, KeyOf pre t key → eff' key = eff key) : Rep hash pre db eff' q c t := by
  induction q generalizing c t p with
  | null =>
    obtain ⟨hc, he, hdb, heff⟩ := h
    exact ⟨hc, he, hdb, heff.frame hf⟩
  | node frm children ih =>
    obtain ⟨loc, val, ch, rfl, hloc, hleaf, hch, hset⟩ := h
    have hnode : eff' (nodeKey pre loc) = eff (nodeKey pre loc) := hf _ (keyOf_top (Or.inl rfl))
    have hleafKey : loc.length % 2 = 0 → eff' (leafKey pre loc) = eff (leafKey pre loc) := fun he =>
      hf _ (keyOf_top (Or.inr ⟨he, rfl⟩))
    refine ⟨loc, val, ch, rfl, hloc, ⟨hleaf.even, hleaf.deleted, hleaf.set, fun h1 h2 => ?_⟩, fun i => ?_, fun hm => ?_⟩
    · exact ⟨(hleaf.kept h1 h2).1, fun he => (hleafKey he).trans ((hleaf.kept h1 h2).2 he)⟩
    · exact ih i (hch i) (hw.2 i) fun key hk => hf key (hk.up hw)
    · obtain ⟨h1, h2, h3, h4, h5⟩ := hset hm
      exact ⟨h1, hnode.trans h2, fun he => (hleafKey he).trans (h3 he), h4, h5⟩

/-! ### Writing -/

@[simp] theorem writeBatch_nil : writeBatch eff [] = eff := rfl

theorem writeBatch_append (a b : WriteBatch) : writeBatch eff (a ++ b) = writeBatch (writeBatch eff a) b := foldl_append

theorem writeBatch_put (k v : Bytes) : writeBatch eff [.put k v] = update eff k (some v) := rfl

theorem writeBatch_delete (k : Bytes) : writeBatch eff [.delete k] = update eff k none := rfl

theorem updateLeaf_spec (h : LeafOk hash pre eff frm loc val) (hloc : frm.location = location loc) :
    (updateLeaf hash pre frm).1 = leafChild hash loc val ∧
    (loc.length % 2 = 0 → writeBatch eff (updateLeaf hash pre frm).2 (leafKey pre loc) = val) ∧
    ∀ key, ¬ KeyAt pre loc key → writeBatch eff (updateLeaf hash pre frm).2 key = eff key := by
  unfold updateLeaf
  rw [hloc]
  cases hd : frm.leafDeleted with
  | true =>
    have he := h.even (Or.inl hd)
    simp only [↓reduceIte, writeBatch_delete]
    refine ⟨by rw [h.deleted hd]; rfl, fun _ => by rw [h.deleted hd]; exact update_self .., fun key hk => ?_⟩
    exact update_of_ne (fun e => hk (Or.inr ⟨he, e⟩)) ..
  | false =>
    cases hl : frm.leaf with
    | none =>
      obtain ⟨hown, heff⟩ := h.kept hd hl
      exact ⟨hown, heff, fun _ _ => rfl⟩
    | some v =>
      have he := h.even (Or.inr (by simp [hl]))
      have hv := h.set hd v hl
      simp only [Bool.false_eq_true, ↓reduceIte, writeBatch_put]
      refine ⟨by rw [hv]; rfl, fun _ => by rw [hv]; exact update_self .., fun key hk => ?_⟩
      exact update_of_ne (fun e => hk (Or.inr ⟨he, e⟩)) ..

theorem location_ne_root : location loc ≠ rootLocation ↔ loc ≠ [] := by
  have : rootLocation = location [] := rfl
  rw [this, Ne, location_inj]

theorem summarize_spec (eff : Db) (t : PTree) (ht : t = .node loc val ch) :
    (loc ≠ [] → (summarize hash pre (location loc) (topInfo hash t)).1 = digest hash t) ∧
    (loc = [] → (summarize hash pre (location loc) (topInfo hash t)).1.hash = hash (topInfo hash t).serialize) ∧
    writeBatch eff (summarize hash pre (location loc) (topInfo hash t)).2 =
      update eff (nodeKey pre loc) (record hash t) := by
  subst ht
  unfold summarize
  rw [digest_node, record]
  simp only [location_ne_root]
  by_cases hroot : loc = []
  · simp [hroot, writeBatch_put]
    rfl
  · by_cases h0 : (topInfo hash (.node loc val ch)).branchCount = 0
    · simp [hroot, h0, entryOf, writeBatch_delete]
      rfl
    · by_cases h1 : (topInfo hash (.node loc val ch)).branchCount = 1
      · simp [hroot, h1, entryOf, writeBatch_delete]
        rfl
      · have h2 : ¬ (topInfo hash (.node loc val ch)).branchCount ≤ 1 := by omega
        simp [hroot, h0, h1, h2, entryOf, writeBatch_put]
        rfl

/-! ### The children -/

def visit (hashCrypto : Bytes → Bytes) (keyPrefix : Bytes) (entry : Child) (q : Pointer) : Child × Pointer × WriteBatch :=
  if q.modified then updateHashNode hashCrypto keyPrefix q else (entry, q, [])

theorem updateHashNode_eq : updateHashNode hash pre (.node frm children) =
    let own := updateLeaf hash pre frm
    let r := fun i => visit hash pre (frm.info.branch i) (children i)
    let top := summarize hash pre frm.location { branch := fun i => (r i).1, own := own.1 }
    (top.1,
      .node { frm with info := { branch := fun i => (r i).1, own := own.1 }, modified := false } (fun i => (r i).2.1),
      own.2 ++ ((finRange 16).flatMap (fun i => (r i).2.2) ++ top.2)) := by
  have h1 : ∀ i, (if (children i).modified = true then (updateHashNode hash pre (children i)).1
      else frm.info.branch i) = (visit hash pre (frm.info.branch i) (children i)).1 := fun i => by
    unfold visit; split <;> rfl
  have h2 : ∀ i, (if (children i).modified = true then (updateHashNode hash pre (children i)).2.1
      else children i) = (visit hash pre (frm.info.branch i) (children i)).2.1 := fun i => by
    unfold visit; split <;> rfl
  have h3 : ∀ i, (if (children i).modified = true then (updateHashNode hash pre (children i)).2.2
      else []) = (visit hash pre (frm.info.branch i) (children i)).2.2 := fun i => by
    unfold visit; split <;> rfl
  simp only [updateHashNode, h1, h2, h3]

structure Visited (hashCrypto : Bytes → Bytes) (keyPrefix : Bytes) (db : Db) (q : Pointer) (c : Child) (t : PTree)
    (r : Child × Pointer × WriteBatch) : Prop where
  entry : r.1 = digest hashCrypto t
  modified : r.2.1.modified = false
  rep : ∀ eff, Rep hashCrypto keyPrefix db eff q c t → Rep hashCrypto keyPrefix db (writeBatch eff r.2.2) r.2.1 r.1 t
  frame : ∀ eff, Rep hashCrypto keyPrefix db eff q c t → ∀ key, ¬ KeyOf keyPrefix t key →
    writeBatch eff r.2.2 key = eff key

theorem visit_all {r : Nibble → Child × Pointer × WriteBatch} {entries : Nibble → Child} (hw : (node loc val ch).WF p)
    (hv : ∀ i, Visited hash pre db (children i) (entries i) (ch i) (r i)) (is : List Nibble) (hnd : is.Nodup)
    (eff : Db) (P : Nibble → Pointer) (C : Nibble → Child)
    (hrep : ∀ i, Rep hash pre db eff (P i) (C i) (ch i))
    (hP : ∀ i ∈ is, P i = children i ∧ C i = entries i) :
    (∀ i, Rep hash pre db (writeBatch eff (is.flatMap fun i => (r i).2.2))
      (if i ∈ is then (r i).2.1 else P i) (if i ∈ is then (r i).1 else C i) (ch i)) ∧
    ∀ key, (∀ i, ¬ KeyOf pre (ch i) key) → writeBatch eff (is.flatMap fun i => (r i).2.2) key = eff key := by
  induction is generalizing eff P C with
  | nil => exact ⟨fun i => by simpa using hrep i, fun _ _ => rfl⟩
  | cons i is ih =>
    obtain ⟨hi, hnd⟩ := nodup_cons.mp hnd
    have hrepi : Rep hash pre db eff (children i) (entries i) (ch i) := by
      rw [← (hP i (by simp)).1, ← (hP i (by simp)).2]
      exact hrep i
    have hstep : ∀ j, Rep hash pre db (writeBatch eff (r i).2.2) (update P i (r i).2.1 j)
        (update C i (r i).1 j) (ch j) := by
      intro j
      by_cases hj : j = i
      · subst hj
        rw [update_self, update_self]
        exact (hv j).rep eff hrepi
      · rw [update_of_ne hj, update_of_ne hj]
        exact (hrep j).frame (hw.2 j) fun key hk => (hv i).frame eff hrepi key (hk.disjoint hw hj)
    obtain ⟨hall, hframe⟩ := ih hnd _ _ _ hstep fun j hj => by
      have hji : j ≠ i := fun e => hi (e ▸ hj)
      rw [update_of_ne hji, update_of_ne hji]
      exact hP j (mem_cons_of_mem _ hj)
    rw [flatMap_cons, writeBatch_append]
    refine ⟨fun j => ?_, fun key hk => (hframe key hk).trans ((hv i).frame eff hrepi key (hk i))⟩
    have := hall j
    by_cases hj : j = i
    · subst hj
      simpa [hi] using this
    · simpa [hj] using this

/-! ### The node -/

theorem updateHashNode_core (hw : (node loc val ch).WF p)
    (hv : ∀ i, Visited hash pre db (children i) (frm.info.branch i) (ch i)
      (visit hash pre (frm.info.branch i) (children i)))
    (h : Rep hash pre db eff (.node frm children) c (.node loc val ch)) :
    let r := updateHashNode hash pre (.node frm children)
    (loc ≠ [] → r.1 = digest hash (.node loc val ch)) ∧
    (loc = [] → r.1.hash = hash (topInfo hash (.node loc val ch)).serialize) ∧
    r.2.1.modified = false ∧
    Rep hash pre db (writeBatch eff r.2.2) r.2.1 (digest hash (.node loc val ch)) (.node loc val ch) ∧
    ∀ key, ¬ KeyOf pre (.node loc val ch) key → writeBatch eff r.2.2 key = eff key := by
  obtain ⟨loc', val', ch', e, hloc, hleaf, hch, -⟩ := h
  cases e
  obtain ⟨hown, hval, hleafFrame⟩ := updateLeaf_spec hleaf hloc
  -- the leaf record is outside the children's trees
  have hch1 : ∀ i, Rep hash pre db (writeBatch eff (updateLeaf hash pre frm).2) (children i)
      (frm.info.branch i) (ch i) := fun i =>
    (hch i).frame (hw.2 i) fun key hk => hleafFrame key (hk.ne_top hw)
  obtain ⟨hall, hframe⟩ := visit_all hw hv (finRange 16) (nodup_finRange 16) _ children frm.info.branch hch1
    fun i _ => ⟨rfl, rfl⟩
  simp only [mem_finRange, ↓reduceIte] at hall
  have hinfo : ({ branch := fun i => (visit hash pre (frm.info.branch i) (children i)).1
                  own := (updateLeaf hash pre frm).1 } : Node) = topInfo hash (.node loc val ch) := by
    simp only [fun i => (hv i).entry, hown, topInfo_node, infoOf]
  rw [updateHashNode_eq]
  simp only [hinfo, hloc, writeBatch_append]
  generalize writeBatch (writeBatch eff (updateLeaf hash pre frm).2)
    ((finRange 16).flatMap fun i => (visit hash pre (frm.info.branch i) (children i)).2.2) = eff2
    at hall hframe ⊢
  obtain ⟨hentry, hhash, hwrite⟩ := summarize_spec eff2 (.node loc val ch) rfl
  have hnode : ∀ key, key ≠ nodeKey pre loc →
      update eff2 (nodeKey pre loc) (record hash (.node loc val ch)) key = eff2 key :=
    fun key hk => update_of_ne hk ..
  have hleaf2 : loc.length % 2 = 0 → eff2 (leafKey pre loc) = val := fun he =>
    (hframe _ fun i hk => hk.ne_top hw (Or.inr ⟨he, rfl⟩)).trans (hval he)
  have hleaf3 : loc.length % 2 = 0 →
      update eff2 (nodeKey pre loc) (record hash (.node loc val ch)) (leafKey pre loc) = val :=
    fun he => (hnode _ (nodeKey_ne_leafKey loc loc).symm).trans (hleaf2 he)
  rw [hwrite]
  refine ⟨hentry, hhash, rfl, ⟨loc, val, ch, rfl, rfl, ?_, fun i => ?_, fun _ => ?_⟩, fun key hk => ?_⟩
  · exact ⟨hleaf.even, hleaf.deleted, hleaf.set, fun _ _ => ⟨rfl, hleaf3⟩⟩
  · have := (hall i).frame (hw.2 i) fun key hk => hnode key fun e => hk.ne_top hw (Or.inl e)
    rwa [(hv i).entry] at this
  · exact ⟨rfl, update_self .., hleaf3, fun i => (hv i).modified, rfl⟩
  · rw [hnode key fun e => hk (keyOf_top (Or.inl e)), hframe key fun i hi => hk (hi.up hw)]
    exact hleafFrame key fun ht => hk (keyOf_top ht)

theorem visited_of_rep (h : Rep hash pre db eff q c t) (hw : t.WF p) (hp : p ≠ []) :
    Visited hash pre db q c t (visit hash pre c q) := by
  induction q generalizing eff c t p with
  | null =>
    have hvisit : visit hash pre c .null = (c, .null, []) := rfl
    rw [hvisit]
    exact ⟨h.entry rfl, rfl, fun _ hr => hr, fun _ _ _ _ => rfl⟩
  | node frm children ih =>
    cases hm : frm.modified with
    | false =>
      have hvisit : visit hash pre c (.node frm children) = (c, .node frm children, []) := by
        simp [visit, Pointer.modified, hm]
      rw [hvisit]
      exact ⟨h.entry hm, hm, fun _ hr => hr, fun _ _ _ _ => rfl⟩
    | true =>
      have hvisit : visit hash pre c (.node frm children) = updateHashNode hash pre (.node frm children) := by
        simp [visit, Pointer.modified, hm]
      obtain ⟨loc, val, ch, rfl, -⟩ := id h
      have hv : ∀ i, Visited hash pre db (children i) (frm.info.branch i) (ch i)
          (visit hash pre (frm.info.branch i) (children i)) := fun i =>
        ih i (h.child i) (hw.2 i) (by simp)
      have hloc : loc ≠ [] := by
        rintro rfl
        exact hp (prefix_nil.mp hw.1)
      rw [hvisit]
      have hentry := (updateHashNode_core hw hv h).1 hloc
      refine ⟨hentry, (updateHashNode_core hw hv h).2.2.1, fun eff hr => ?_, fun eff hr => ?_⟩
      · rw [hentry]
        exact (updateHashNode_core hw hv hr).2.2.2.1
      · exact (updateHashNode_core hw hv hr).2.2.2.2

theorem updateHashNode_root (h : Rep hash pre db eff (.node frm children) c (.node [] val ch))
    (hw : (node [] val ch).WF []) :
    let r := updateHashNode hash pre (.node frm children)
    r.1.hash = hash (topInfo hash (.node [] val ch)).serialize ∧
    r.2.1.modified = false ∧
    Rep hash pre db (writeBatch eff r.2.2) r.2.1 (digest hash (.node [] val ch)) (.node [] val ch) ∧
    ∀ key, ¬ KeyOf pre (.node [] val ch) key → writeBatch eff r.2.2 key = eff key := by
  have hv : ∀ i, Visited hash pre db (children i) (frm.info.branch i) (ch i)
      (visit hash pre (frm.info.branch i) (children i)) := fun i =>
    visited_of_rep (h.child i) (hw.2 i) (by simp)
  obtain ⟨-, hhash, hrest⟩ := updateHashNode_core hw hv h
  exact ⟨hhash rfl, hrest⟩

theorem Rep.holds (h : Rep hash pre db eff q c t) (hw : t.WF p) (hm : q.modified = false) :
    Holds hash pre eff t := by
  induction q generalizing c t p with
  | null => exact h.2.2.2
  | node frm children ih =>
    obtain ⟨loc, val, ch, rfl, -, -, hch, hset⟩ := h
    obtain ⟨-, hnode, hleaf, hbelow, -⟩ := hset hm
    have hbranch := fun i => ih i (hch i) (hw.2 i) (hbelow i)
    refine ⟨fun l hl => ?_, fun l hl he => ?_⟩
    · rcases place_cases loc l with rfl | ⟨i, hi⟩ | ho
      · rwa [sub_self]
      · rw [sub_branch hi] at hl ⊢
        exact (hbranch i).node l hl
      · simp [sub_outside ho, isNode] at hl
    · rcases place_cases loc l with rfl | ⟨i, hi⟩ | ho
      · rw [find_self]
        exact hleaf he
      · rw [sub_branch hi] at hl
        rw [find_branch hi]
        exact (hbranch i).leaf l hl he
      · simp [sub_outside ho, isNode] at hl

end
end OpenSesame
