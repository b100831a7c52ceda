import OpenSesame.Theorems.Trie.Hash

/-! # `Release`, `Load` and the whole database

Freeing memory replaces subtrees by their compressed form in the database, loading does the reverse;
neither changes the map. -/

namespace OpenSesame
open Patricia RadixTree

section
variable {hash : Bytes → Bytes} {pre : Bytes} {db eff d : Db} {c : Child} {t : PTree}
  {p l loc : List Nibble} {val : Option Bytes} {ch : Nibble → PTree} {frm : NodeFrm}
  {children : Nibble → Pointer} {q : Pointer}

/-! ### `Release` -/

theorem Holds.compress (h : Holds hash pre d t) (hw : t.WF p) (hp : p ≠ []) : Holds hash pre d t.compress := by
  have hnode : ∀ l, (t.compress.sub l).isNode = true → (t.sub l).isNode = true ∧ l ≠ [] := by
    intro l hl
    refine ⟨?_, ?_⟩
    · rw [RadixTree.sub_compress hw] at hl
      cases hs : t.sub l with
      | empty => simp [hs, RadixTree.compress, RadixTree.isNode] at hl
      | node => rfl
    · rintro rfl
      exact hp (List.prefix_nil.mp (prefix_of_isNode hw.compress hl))
  refine ⟨fun l hl => ?_, fun l hl he => ?_⟩
  · rw [record_compress hw (hnode l hl).2]
    exact h.node l (hnode l hl).1
  · rw [RadixTree.find_compress hw]
    exact h.leaf l (hnode l hl).1 he

variable {ch' : Nibble → PTree}

theorem rep_swap {children' : Nibble → Pointer} (h : Rep hash pre db eff (.node frm children) c (.node loc val ch))
    (hrep : ∀ i, Rep hash pre db eff (children' i) (frm.info.branch i) (ch' i))
    (hdig : ∀ i, digest hash (ch' i) = digest hash (ch i)) (hmod : ∀ i, (children' i).modified = false) :
    Rep hash pre db eff (.node frm children') c (.node loc val ch') ∧
      digest hash (.node loc val ch') = digest hash (.node loc val ch) := by
  have hinfo : topInfo hash (.node loc val ch') = topInfo hash (.node loc val ch) := by
    simp only [topInfo_node, hdig]
  have hentry : digest hash (.node loc val ch') = digest hash (.node loc val ch) := by
    rw [digest_node, digest_node, hinfo]
  obtain ⟨loc', val', ch0, e, hloc, hleaf, -, hset⟩ := h
  cases e
  refine ⟨⟨loc, val, ch', rfl, hloc, hleaf, hrep, fun hm => ?_⟩, hentry⟩
  obtain ⟨h1, h2, h3, -, h5⟩ := hset hm
  exact ⟨h1.trans hentry.symm, h2.trans (record_congr hinfo).symm, h3, hmod, h5⟩

theorem find_node_congr (h : ∀ i l, (ch' i).find l = (ch i).find l) (l : List Nibble) :
    (node loc val ch').find l = (node loc val ch).find l := by
  rcases place_cases loc l with rfl | ⟨i, hi⟩ | ho
  · rw [find_self, find_self]
  · rw [find_branch hi, find_branch hi, h]
  · rw [find_outside ho, find_outside ho]

structure Released (hashCrypto : Bytes → Bytes) (keyPrefix : Bytes) (db eff : Db) (q : Pointer) (c : Child)
    (p : List Nibble) (t t' : PTree) : Prop where
  rep : Rep hashCrypto keyPrefix db eff q c t'
  wf : t'.WF p
  digest : OpenSesame.digest hashCrypto t' = OpenSesame.digest hashCrypto t
  find : ∀ l, t'.find l = t.find l
  modified : q.modified = false

theorem release_node {depth : ℤ} (h : Rep hash pre db eff (.node frm children) c (.node loc val ch))
    (hw : (node loc val ch).WF p) (hm : ∀ i, (children i).modified = false)
    (hdb : ∀ i, Holds hash pre db (ch i))
    (hrec : ∀ i, ∃ t', Released hash pre db eff (release (children i) (depth - 1)) (frm.info.branch i)
      (loc ++ [i]) (ch i) t') :
    ∃ children' ch', release (.node frm children) depth = .node frm children' ∧
      Rep hash pre db eff (.node frm children') c (.node loc val ch') ∧ (node loc val ch').WF p ∧
      digest hash (.node loc val ch') = digest hash (.node loc val ch) ∧
      (∀ l, (node loc val ch').find l = (node loc val ch).find l) ∧ ∀ i, (children' i).modified = false := by
  have hstep : ∀ i, ∃ t', Released hash pre db eff
      (if depth ≤ 0 then .null else release (children i) (depth - 1)) (frm.info.branch i) (loc ++ [i]) (ch i) t' := by
    intro i
    split
    · have heff := (h.child i).holds (hw.2 i) (hm i)
      have hne : loc ++ [i] ≠ [] := by simp
      refine ⟨(ch i).compress, ⟨canonical_compress _, ?_, (hdb i).compress (hw.2 i) hne, heff.compress (hw.2 i) hne⟩,
        (hw.2 i).compress, digest_compress _, fun l => find_compress (hw.2 i), rfl⟩
      rw [digest_compress, (h.child i).entry (hm i)]
    · exact hrec i
  choose ch' hch' using hstep
  obtain ⟨hrep, hdig⟩ := rep_swap h (fun i => (hch' i).rep) (fun i => (hch' i).digest) fun i => (hch' i).modified
  exact ⟨_, ch', rfl, hrep, ⟨hw.1, fun i => (hch' i).wf⟩, hdig, find_node_congr fun i => (hch' i).find,
    fun i => (hch' i).modified⟩

/-- Freed memory stands for the same map, when nothing below is modified and the database is up to date. -/
theorem release_spec (h : Rep hash pre db eff q c t) (hw : t.WF p) (hm : q.modified = false)
    (hdb : Holds hash pre db t) (depth : ℤ) :
    ∃ t', Released hash pre db eff (release q depth) c p t t' := by
  induction q generalizing c t p depth with
  | null => exact ⟨t, h, hw, rfl, fun _ => rfl, rfl⟩
  | node frm children ih =>
    obtain ⟨loc, val, ch, rfl, -, -, -, hset⟩ := id h
    have hbelow := (hset hm).below
    have hrec : ∀ i, ∃ t', Released hash pre db eff (release (children i) (depth - 1)) (frm.info.branch i)
        (loc ++ [i]) (ch i) t' := fun i => ih i (h.child i) (hw.2 i) (hbelow i) (hdb.branch hw i) (depth - 1)
    obtain ⟨children', ch', e, hrep, hw', hdig, hfind, -⟩ := release_node h hw hbelow (hdb.branch hw) hrec
    exact ⟨.node loc val ch', e ▸ hrep, hw', hdig, hfind, e ▸ hm⟩

theorem load_spec (h : Rep hash pre db eff q c t) (hw : t.WF p) (levels : ℕ) :
    ∃ q', load pre db levels q = some q' ∧ Rep hash pre db eff q' c t ∧ q'.modified = q.modified ∧
      ∀ frm children, q = .node frm children →
        ∃ children', q' = .node frm children' ∧ ∀ i, (children' i).modified = (children i).modified := by
  induction levels generalizing q c t p with
  | zero => exact ⟨q, by cases q <;> rfl, h, rfl, fun frm children e => ⟨children, e, fun _ => rfl⟩⟩
  | succ levels ih =>
    cases q with
    | null => exact ⟨.null, rfl, h, rfl, nofun⟩
    | node frm children =>
      obtain ⟨loc, val, ch, rfl, -⟩ := id h
      have hfold : ∀ (is : List Nibble) (P : Nibble → Pointer), Rep hash pre db eff (.node frm P) c (.node loc val ch) →
          ∃ P', is.foldlM (fun ch i => do
              let child ← childMayFromDB pre db frm ch i
              let child ← load pre db levels child
              some (Function.update ch i child)) P = some P' ∧
            Rep hash pre db eff (.node frm P') c (.node loc val ch) ∧
            ∀ i, (P' i).modified = (P i).modified := by
        intro is
        induction is with
        | nil => exact fun P hP => ⟨P, rfl, hP, fun _ => rfl⟩
        | cons i is ihs =>
          intro P hP
          obtain ⟨q, hq, hrep, hmod, -⟩ := childMayFromDB_spec (hw.2 i) (hP.child i)
          obtain ⟨q', hq', hrep', hmod', -⟩ := ih hrep (hw.2 i)
          obtain ⟨P', hP', hrepP, hflags⟩ := ihs _ (rep_load hP hrep' (hmod'.trans hmod))
          refine ⟨P', ?_, hrepP, fun j => ?_⟩
          · simp only [List.foldlM_cons, hq, hq', Option.bind_eq_bind, Option.bind_some] at hP' ⊢
            exact hP'
          · rw [hflags j]
            by_cases hj : j = i
            · rw [hj, Function.update_self, hmod', hmod]
            · rw [Function.update_of_ne hj]
      obtain ⟨P', hP', hrep, hflags⟩ := hfold (List.finRange 16) children h
      refine ⟨.node frm P', ?_, hrep, rfl, fun frm' children' e => ?_⟩
      · rw [load, hP']
        rfl
      · cases e
        exact ⟨P', rfl, hflags⟩

/-! ### The image of a map -/

/-- The database holds the records of the tree at the root, and nothing at other locations; a trie that was
    never hashed has no root record. -/
structure Synced (hashCrypto : Bytes → Bytes) (keyPrefix : Bytes) (d : Db) (t : PTree) : Prop where
  node : ∀ l, l ≠ [] → d (nodeKey keyPrefix l) = record hashCrypto (t.sub l)
  leaf : ∀ l, l.length % 2 = 0 → d (leafKey keyPrefix l) = t.find l
  root : d (nodeKey keyPrefix []) = record hashCrypto (t.sub []) ∨
    (d (nodeKey keyPrefix []) = none ∧ ∀ l, t.find l = none)

theorem record_eq_of_find {val' : Option Bytes} (hw : (node loc val ch).WF p)
    (hw' : (node loc val' ch').WF p) (hf : ∀ l, (node loc val' ch').find l = (node loc val ch).find l)
    (l : List Nibble) :
    record hash ((node loc val' ch').sub l) = record hash ((node loc val ch).sub l) := by
  rw [← record_compressBelow hw, ← record_compressBelow hw', compressBelow_eq_of_find hw' hw hf]

theorem Synced.of_find {val' : Option Bytes}
    (h : Synced hash pre d (.node [] val ch)) (hw : (RadixTree.node [] val ch).WF [])
    (hw' : (RadixTree.node [] val' ch').WF []) (hf : ∀ l, (RadixTree.node [] val' ch').find l = (RadixTree.node [] val ch).find l) :
    Synced hash pre d (.node [] val' ch') where
  node l hl := (h.node l hl).trans (record_eq_of_find hw hw' hf l).symm
  leaf l he := (h.leaf l he).trans (hf l).symm
  root := h.root.imp (fun e => e.trans (record_eq_of_find hw hw' hf []).symm)
    fun e => ⟨e.1, fun l => (hf l).trans (e.2 l)⟩

theorem Synced.holds (h : Synced hash pre d (.node [] val ch)) (hw : (RadixTree.node [] val ch).WF []) (i : Nibble) :
    Holds hash pre d (ch i) := by
  have hi : ∀ l, ((ch i).sub l).isNode = true → [] ++ [i] <+: l := fun l hl => prefix_of_isNode (hw.2 i) hl
  refine ⟨fun l hl => ?_, fun l hl he => ?_⟩
  · have hne : l ≠ [] := ne_of_branch (hi l hl)
    rw [h.node l hne, RadixTree.sub_branch (hi l hl)]
  · rw [h.leaf l he, RadixTree.find_branch (hi l hl)]

theorem Synced.beside (h : Synced hash pre d (.node [] val ch)) {key : Bytes}
    (hl : (RadixTree.node [] val ch).sub l = .empty) (hk : KeyAt pre l key) : d key = none := by
  rcases hk with rfl | ⟨he, rfl⟩
  · have hne : l ≠ [] := by
      rintro rfl
      simp at hl
    rw [h.node l hne, hl]
    rfl
  · rw [h.leaf l he, RadixTree.find_eq_of_sub hl]

theorem Rep.written (h : Rep hash pre db eff q c t) : Rep hash pre eff eff q c t := by
  induction q generalizing c t with
  | null => exact ⟨h.1, h.2.1, h.2.2.2, h.2.2.2⟩
  | node frm children ih =>
    obtain ⟨loc, val, ch, rfl, hloc, hleaf, hch, hset⟩ := h
    exact ⟨loc, val, ch, rfl, hloc, hleaf, fun i => ih i (hch i), hset⟩

theorem Holds.synced (h : Holds hash pre d (.node [] val ch))
    (hb : ∀ l, (RadixTree.node [] val ch).sub l = .empty → ∀ key, KeyAt pre l key → d key = none) :
    Synced hash pre d (.node [] val ch) := by
  have hnode : ∀ l, d (nodeKey pre l) = record hash ((RadixTree.node [] val ch).sub l) := by
    intro l
    cases hs : ((RadixTree.node [] val ch).sub l).isNode with
    | true => exact h.node l hs
    | false =>
      rw [RadixTree.isNode_eq_false] at hs
      rw [hb l hs _ (Or.inl rfl), hs]
      rfl
  refine ⟨fun l _ => hnode l, fun l he => ?_, Or.inl (hnode [])⟩
  cases hs : ((RadixTree.node [] val ch).sub l).isNode with
  | true => exact h.leaf l hs he
  | false =>
    rw [RadixTree.isNode_eq_false] at hs
    rw [hb l hs _ (Or.inr ⟨he, rfl⟩), RadixTree.find_eq_of_sub hs]

end
end OpenSesame
