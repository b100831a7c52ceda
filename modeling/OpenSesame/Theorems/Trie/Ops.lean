import OpenSesame.Theorems.Trie.Rep

/-! # `SetItem`, `DeleteItem` and `Exists` on the represented tree

Each call returns, given fuel for the nibbles that are left, and the node afterwards stands for the tree with
the key inserted or erased. -/

namespace OpenSesame
open Patricia RadixTree NodeFrm Function List Option

section
variable {hash : Bytes → Bytes} {pre : Bytes} {db eff : Db} {c c' : Child} {t : PTree}
  {p k loc : List Nibble} {val : Option Bytes} {ch : Nibble → PTree} {v : Bytes} {frm frm' : NodeFrm}
  {children : Nibble → Pointer} {i : Nibble} {q : Pointer}

/-! ### Changing one node -/

structure SameLeaf (frm frm' : NodeFrm) : Prop where
  location : frm'.location = frm.location
  deleted : frm'.leafDeleted = frm.leafDeleted
  leaf : frm'.leaf = frm.leaf
  own : frm'.info.own = frm.info.own

theorem LeafOk.congr (h : LeafOk hash pre eff frm loc val) (hs : SameLeaf frm frm') :
    LeafOk hash pre eff frm' loc val := by
  obtain ⟨-, hd, hl, ho⟩ := hs
  exact ⟨by rw [hd, hl]; exact h.even, by rw [hd]; exact h.deleted, by rw [hd, hl]; exact h.set,
    by rw [hd, hl, ho]; exact h.kept⟩

theorem rep_update (h : Rep hash pre db eff (.node frm children) c (.node loc val ch))
    (hs : SameLeaf frm frm') (hbr : ∀ j, j ≠ i → frm'.info.branch j = frm.info.branch j)
    (hmod : frm'.modified = true) (hq : Rep hash pre db eff q (frm'.info.branch i) t) :
    Rep hash pre db eff (.node frm' (update children i q)) c' (.node loc val (update ch i t)) := by
  obtain ⟨loc', val', ch', e, hloc, hleaf, hch, -⟩ := h
  cases e
  refine ⟨loc, val, _, rfl, hs.location.trans hloc, hleaf.congr hs, fun j => ?_, fun hm => by simp [hmod] at hm⟩
  by_cases hj : j = i
  · subst hj
    rwa [update_self, update_self]
  · rw [update_of_ne hj, update_of_ne hj, hbr j hj]
    exact hch j

theorem rep_load (h : Rep hash pre db eff (.node frm children) c (.node loc val ch))
    (hq : Rep hash pre db eff q (frm.info.branch i) (ch i)) (hmod : q.modified = (children i).modified) :
    Rep hash pre db eff (.node frm (update children i q)) c (.node loc val ch) := by
  obtain ⟨loc', val', ch', e, hloc, hleaf, hch, hset⟩ := h
  cases e
  refine ⟨loc, val, ch, rfl, hloc, hleaf, fun j => ?_, fun hm => ?_⟩
  · by_cases hj : j = i
    · subst hj
      rwa [update_self]
    · rw [update_of_ne hj]
      exact hch j
  · obtain ⟨h1, h2, h3, h4, h5⟩ := hset hm
    refine ⟨h1, h2, h3, fun j => ?_, h5⟩
    by_cases hj : j = i
    · subst hj
      rw [update_self, hmod, h4]
    · rw [update_of_ne hj, h4]

theorem Rep.child (h : Rep hash pre db eff (.node frm children) c (.node loc val ch)) (i : Nibble) :
    Rep hash pre db eff (children i) (frm.info.branch i) (ch i) := by
  obtain ⟨loc', val', ch', e, -, -, hch, -⟩ := h
  cases e
  exact hch i

theorem Rep.location (h : Rep hash pre db eff (.node frm children) c (.node loc val ch)) :
    frm.location = OpenSesame.location loc := by
  obtain ⟨loc', val', ch', e, hloc, -⟩ := h
  cases e
  exact hloc

theorem rep_setValue (h : Rep hash pre db eff (.node frm children) c (.node loc val ch)) (he : loc.length % 2 = 0) :
    Rep hash pre db eff (.node (frm.setValue v) children) c' (.node loc (some v) ch) := by
  obtain ⟨loc', val', ch', e, hloc, -, hch, -⟩ := h
  cases e
  refine ⟨loc, some v, ch, rfl, hloc, ⟨fun _ => he, nofun, fun _ _ hw => hw, nofun⟩, hch, nofun⟩

theorem rep_new (h : loc.length % 2 = 0 → eff (leafKey pre loc) = none) :
    Rep hash pre db eff (.bare { location := OpenSesame.location loc }) c (.node loc none fun _ => .empty) :=
  ⟨loc, none, _, rfl, rfl, ⟨by simp, nofun, nofun, fun _ _ => ⟨rfl, h⟩⟩, fun _ => rep_null_empty db eff, nofun⟩

theorem rep_newLeaf (he : k.length % 2 = 0) :
    Rep hash pre db eff (.bare (({ location := OpenSesame.location k } : NodeFrm).setValue v)) c (.leaf k v) :=
  ⟨k, some v, _, rfl, rfl, ⟨fun _ => he, nofun, fun _ _ hw => hw, nofun⟩, fun _ => rep_null_empty db eff, nofun⟩

theorem descend (h : loc ++ [i] <+: k) :
    nextBranch (commonPrefix (location loc) (location k)) (location k) = some i := by
  obtain ⟨r, hr⟩ := h
  have hk : k = loc ++ i :: r := by simpa using hr.symm
  rw [commonPrefix_location, lcp_eq_left.mpr ⟨i :: r, hk.symm⟩, hk, nextBranch_location]

theorem nextBranch_of_branch (h : loc ++ [i] <+: k) : nextBranch (location loc) (location k) = some i := by
  obtain ⟨r, hr⟩ := h
  have hk : k = loc ++ i :: r := by simpa using hr.symm
  rw [hk, nextBranch_location]

theorem location_ne_of_branch (h : loc ++ [i] <+: k) : location loc ≠ location k := fun e =>
  ne_of_branch h (location_inj.mp e).symm

def NoLeafBeside (keyPrefix : Bytes) (eff : Db) (p : List Nibble) (t : PTree) : Prop :=
  ∀ l, p <+: l → t.sub l = .empty → l.length % 2 = 0 → eff (leafKey keyPrefix l) = none

theorem NoLeafBeside.branch (h : NoLeafBeside pre eff p (.node loc val ch)) (hp : p <+: loc) (i : Nibble) :
    NoLeafBeside pre eff (loc ++ [i]) (ch i) := fun l hl hsub he =>
  h l (hp.trans (prefix_of_branch hl)) (by rwa [sub_branch hl]) he

theorem length_lt_of_branch (h : loc ++ [i] <+: k) : loc.length < k.length := by
  have := h.length_le
  simp only [length_append, length_singleton] at this
  omega

/-! ### `SetItem` -/

theorem setItem_above {frm2 : NodeFrm} {children2 : Nibble → Pointer} {child2 : Child} {loc2 : List Nibble}
    {val2 : Option Bytes} {ch2 : Nibble → PTree} {j : Nibble} (he : k.length % 2 = 0)
    (h2 : Rep hash pre db eff (.node frm2 children2) child2 (.node loc2 val2 ch2)) :
    Rep hash pre db eff
      (.node (((({ location := location k } : NodeFrm).setValue v).setChild j frm2.location).copyChild j child2)
        (update (fun _ => .null) j (.node frm2 children2))) c
      (.node k (some v) (update (fun _ => .empty) j (.node loc2 val2 ch2))) := by
  refine rep_update (c := c) (rep_newLeaf he) ⟨rfl, rfl, rfl, rfl⟩ (fun j' hj => ?_) rfl ?_
  · simp [copyChild, setChild, hj]
  · simpa [copyChild, setChild] using h2

theorem setItem_split {frm2 : NodeFrm} {children2 : Nibble → Pointer} {child2 : Child} {l loc2 : List Nibble}
    {val2 : Option Bytes} {ch2 : Nibble → PTree} {j : Nibble} (he : k.length % 2 = 0)
    (hl : l.length % 2 = 0 → eff (leafKey pre l) = none)
    (h2 : Rep hash pre db eff (.node frm2 children2) child2 (.node loc2 val2 ch2)) :
    Rep hash pre db eff
      (.node (((({ location := location l } : NodeFrm).setChild i (location k)).setChild j frm2.location).copyChild
          j child2)
        (update (update (fun _ => .null) i
          (.bare (({ location := location k } : NodeFrm).setValue v))) j (.node frm2 children2))) c
      (.node l none (update (update (fun _ => .empty) i (.leaf k v)) j (.node loc2 val2 ch2))) := by
  have h1 : Rep hash pre db eff (.node (({ location := location l } : NodeFrm).setChild i (location k))
        (update (fun _ => .null) i (.bare (({ location := location k } : NodeFrm).setValue v)))) c
      (.node l none (update (fun _ => .empty) i (.leaf k v))) := by
    refine rep_update (c := c) (rep_new hl) ⟨rfl, rfl, rfl, rfl⟩ (fun j' hj => ?_) rfl (rep_newLeaf he)
    simp [copyChild, setChild, hj]
  refine rep_update h1 ⟨rfl, rfl, rfl, rfl⟩ (fun j' hj => ?_) rfl ?_
  · simp [copyChild, setChild, hj]
  · simpa [copyChild, setChild] using h2

variable {fuel : ℕ}

theorem setItem_spec (he : k.length % 2 = 0) (h : Rep hash pre db eff (.node frm children) c (.node loc val ch))
    (hw : (node loc val ch).WF p) (hs : NoLeafBeside pre eff p (.node loc val ch)) (hk : loc <+: k)
    (hfuel : k.length - loc.length < fuel) :
    ∃ b frm' children', setItem pre db (location k) v fuel (.node frm children) = some (b, .node frm' children') ∧
      b = !((node loc val ch).sub k).isNode ∧ frm'.modified = true ∧
      ∀ c', Rep hash pre db eff (.node frm' children') c' (insert k v (.node loc val ch)) := by
  induction fuel generalizing frm children c loc val ch p with
  | zero => omega
  | succ fuel ih =>
    obtain ⟨floc, info, modified, del, leaf⟩ := frm
    obtain rfl : floc = location loc := h.location
    rcases insert_node k v loc val ch with ⟨rfl, e⟩ | ⟨i, hi, e⟩ | ⟨j, hj, -⟩ | ⟨i, j, hij, hi, hj, -⟩
    · rw [e]
      exact ⟨false, _, _, by simp only [setItem, ↓reduceIte]; rfl, by simp [isNode], by rfl,
        fun c' => rep_setValue h he⟩
    · rw [e]
      obtain ⟨q, hq, hrep, -, hnull⟩ := childMayFromDB_spec (hw.2 i) (h.child i)
      have hq' : childMayFromDB pre db ⟨location loc, info, true, del, leaf⟩ children i = some q := hq
      cases q with
      | null =>
        obtain ⟨hempty, -⟩ := hnull rfl
        refine ⟨true, _, _, by simp only [setItem, location_ne_of_branch hi, ↓reduceIte, descend hi, hq',
          bind_eq_bind, bind_some]; rfl, ?_, by rfl, fun c' => ?_⟩
        · rw [sub_branch hi, hempty]
          rfl
        rw [hempty]
        refine rep_update h ⟨rfl, rfl, rfl, rfl⟩ (fun j hj => ?_) rfl (rep_newLeaf he)
        simp [setChildType, copyChild, setChild, hj]
      | node frm2 children2 =>
        obtain ⟨loc2, val2, ch2, hch, hloc2, -⟩ := id hrep
        rw [hch] at hrep ⊢
        have hw2 : (node loc2 val2 ch2).WF (loc ++ [i]) := hch ▸ hw.2 i
        have hs2 : NoLeafBeside pre eff (loc ++ [i]) (.node loc2 val2 ch2) := hch ▸ hs.branch hw.1 i
        have hcommon : commonPrefix (location k) frm2.location = location (lcp k loc2) := by
          rw [hloc2, commonPrefix_location]
        by_cases hdown : loc2 <+: k
        · -- the key lies below the child
          obtain ⟨b, frm2', children2', hset, hb, hmod, hrep'⟩ := ih hrep hw2 hs2 hdown (by
            have := length_lt_of_branch hi
            have := hw2.1.length_le
            simp only [length_append, length_singleton] at this
            omega)
          have hthere : commonPrefix (location k) frm2.location = frm2.location := by
            rw [hcommon, hloc2, lcp_eq_right.mpr hdown]
          refine ⟨b, _, _, by simp only [setItem, location_ne_of_branch hi, ↓reduceIte, descend hi, hq', hthere, hset,
            bind_eq_bind, bind_some]; rfl, ?_, by rfl, fun c' => ?_⟩
          · rw [sub_branch hi, hch, hb]
          exact rep_update h ⟨rfl, rfl, rfl, rfl⟩ (fun _ _ => rfl) rfl (hrep' _)
        · have hthere : commonPrefix (location k) frm2.location ≠ frm2.location := by
            rw [hcommon, hloc2, Ne, location_inj, lcp_eq_right]
            exact hdown
          have hsub : ((node loc val ch).sub k).isNode = false := by
            rw [sub_branch hi, hch, sub_outside hdown]
            rfl
          rcases insert_node k v loc2 val2 ch2 with ⟨rfl, -⟩ | ⟨i', hi', -⟩ | ⟨j, hj, e2⟩ | ⟨i', j, hij, hi', hj, e2⟩
          · exact absurd (prefix_refl k) hdown
          · exact absurd (prefix_of_branch hi') hdown
          · -- the key lies between the node and the child
            have hk2 : lcp k loc2 = k := lcp_eq_left.mpr (prefix_of_branch hj)
            have hnb : nextBranch (location k) frm2.location = some j := hloc2 ▸ nextBranch_of_branch hj
            rw [hk2] at hcommon
            rw [hcommon] at hthere
            refine ⟨true, _, _, by simp only [setItem, location_ne_of_branch hi, ↓reduceIte, descend hi, hq', hcommon,
              hthere, hnb, bind_eq_bind, bind_some]; rfl, by rw [hsub]; rfl, by rfl, fun c' => ?_⟩
            rw [e2]
            refine rep_update h ⟨rfl, rfl, rfl, rfl⟩ (fun j' hj' => ?_) rfl (setItem_above he hrep)
            simp [setChildType, copyChild, setChild, hj']
          · -- the key and the child part below the node
            have hthere' := location_ne_of_branch hi'
            have hnb1 : nextBranch (location (lcp k loc2)) (location k) = some i' := nextBranch_of_branch hi'
            have hnb2 : nextBranch (location (lcp k loc2)) frm2.location = some j := hloc2 ▸ nextBranch_of_branch hj
            have hfree : (lcp k loc2).length % 2 = 0 → eff (leafKey pre (lcp k loc2)) = none :=
              hs2 _ (prefix_lcp hi hw2.1) (sub_outside fun h' => ne_of_branch (hj.trans h') rfl)
            rw [hcommon] at hthere
            refine ⟨true, _, _, by simp only [setItem, location_ne_of_branch hi, ↓reduceIte, descend hi, hq', hcommon,
              hthere, hthere', hnb1, hnb2, bind_eq_bind, bind_some]; rfl, by rw [hsub]; rfl, by rfl,
              fun c' => ?_⟩
            rw [e2]
            refine rep_update h ⟨rfl, rfl, rfl, rfl⟩ (fun j' hj' => ?_) rfl (setItem_split he hfree hrep)
            simp [copyChild, setChild, hj']
    · exact absurd (hj.trans hk) fun hkk => ne_of_branch hkk rfl
    · exact absurd (branch_unique hi (hj.trans hk)) hij

/-! ### `DeleteItem` -/

theorem rep_markReopensesame (h : Rep hash pre db eff (.node frm children) c (.node loc val ch))
    (he : loc.length % 2 = 0) :
    Rep hash pre db eff (.node frm.markReopensesame children) c' (.node loc none ch) := by
  obtain ⟨loc', val', ch', e, hloc, -, hch, -⟩ := h
  cases e
  exact ⟨loc, none, ch, rfl, hloc, ⟨fun _ => he, fun _ => rfl, nofun, nofun⟩, hch, nofun⟩

theorem length_location_le {l : List Nibble} (h : l <+: k) : (location l).length ≤ (location k).length := by
  have hlen : ∀ m : List Nibble, (pack m).length = (m.length + 1) / 2 := by
    intro m
    induction m using pack.induct with
    | case1 => rfl
    | case2 a => simp [pack]
    | case3 a b r ih =>
      simp only [pack, length_cons, ih]
      omega
  have := h.length_le
  simp only [location, length_cons, hlen]
  omega

/-- A deletion that finds no node changes nothing but what is loaded; one that does marks the way to it. -/
theorem deleteItem_spec (he : k.length % 2 = 0) (h : Rep hash pre db eff (.node frm children) c (.node loc val ch))
    (hw : (node loc val ch).WF p) (hk : loc <+: k) (hfuel : k.length - loc.length < fuel) :
    ∃ b frm' children', deleteItem pre db (location k) fuel (.node frm children) = some (b, .node frm' children') ∧
      b = ((node loc val ch).sub k).isNode ∧
      (b = true → frm'.modified = true ∧
        ∀ c', Rep hash pre db eff (.node frm' children') c' (erase k (.node loc val ch))) ∧
      (b = false → frm' = frm ∧ erase k (.node loc val ch) = .node loc val ch ∧
        Rep hash pre db eff (.node frm' children') c (.node loc val ch)) := by
  induction fuel generalizing frm children c loc val ch p with
  | zero => omega
  | succ fuel ih =>
    obtain ⟨floc, info, modified, del, leaf⟩ := frm
    obtain rfl : floc = location loc := h.location
    have hlen : ¬ (location loc).length > (location k).length := Nat.not_lt.mpr (length_location_le hk)
    rcases erase_node k loc val ch with ⟨rfl, e⟩ | ⟨i, hi, e⟩ | ⟨ho, -⟩
    · refine ⟨true, _, _, by simp only [deleteItem, hlen, ↓reduceIte]; rfl, by simp [isNode],
        fun _ => ⟨by rfl, fun c' => ?_⟩, (by rintro ⟨⟩)⟩
      rw [e]
      exact rep_markReopensesame h he
    · obtain ⟨q, hq, hrep, hmod, hnull⟩ := childMayFromDB_spec (hw.2 i) (h.child i)
      have hne := (location_ne_of_branch hi).symm
      cases q with
      | null =>
        obtain ⟨hempty, -⟩ := hnull rfl
        have hsub : (node loc val ch).sub k = .empty := by rw [sub_branch hi, hempty, sub_empty]
        refine ⟨false, _, _, ?_, by rw [hsub]; rfl, (by rintro ⟨⟩), fun _ => ⟨rfl, erase_eq_self hsub, h⟩⟩
        simp only [deleteItem, hlen, hne, ↓reduceIte, descend hi, hq, bind_eq_bind, bind_some]
      | node frm2 children2 =>
        obtain ⟨loc2, val2, ch2, hch, hloc2, -⟩ := id hrep
        have hload := rep_load h hrep hmod
        have hw2 : (node loc2 val2 ch2).WF (loc ++ [i]) := hch ▸ hw.2 i
        have hcommon : commonPrefix frm2.location (location k) = location (lcp loc2 k) := by
          rw [hloc2, commonPrefix_location]
        by_cases hdown : loc2 <+: k
        · have hthere : ¬ (frm2.location ≠ commonPrefix frm2.location (location k)) := by
            rw [hcommon, hloc2, lcp_eq_left.mpr hdown]
            exact fun hne => hne rfl
          obtain ⟨b, frm2', children2', hdel, hnode, htrue, hfalse⟩ := ih (hch ▸ hrep) hw2 hdown (by
            have := length_lt_of_branch hi
            have := hw2.1.length_le
            simp only [length_append, length_singleton] at this
            omega)
          refine ⟨b, _, _, by simp only [deleteItem, hlen, hne, ↓reduceIte, descend hi, hq, hthere, hdel,
            bind_eq_bind, bind_some]; rfl, ?_, fun hb => ⟨by simp [hb], fun c' => ?_⟩, fun hb => ?_⟩
          · rw [sub_branch hi, hch]
            exact hnode
          · rw [e, hch]
            exact rep_update hload ⟨rfl, rfl, rfl, rfl⟩ (fun _ _ => rfl) (by simp [hb]) ((htrue hb).2 _)
          · obtain ⟨rfl, heq, hrep'⟩ := hfalse hb
            have hsame : erase k (.node loc val ch) = .node loc val ch := by
              rw [e, hch, heq, ← hch, update_eq_self]
            refine ⟨by simp [hb], hsame, ?_⟩
            simp only [hb, Bool.or_false]
            exact rep_load hload (hch ▸ hrep') (by simp [Pointer.modified])
        · have hthere : frm2.location ≠ commonPrefix frm2.location (location k) := by
            rw [hcommon, hloc2, Ne, location_inj, eq_comm, lcp_eq_left]
            exact hdown
          have hsub : (node loc val ch).sub k = .empty := by
            rw [sub_branch hi, hch, sub_outside hdown]
          refine ⟨false, _, _, ?_, by rw [hsub]; rfl, (by rintro ⟨⟩), fun _ => ⟨rfl, erase_eq_self hsub, hload⟩⟩
          simp only [deleteItem, hlen, hne, ↓reduceIte, descend hi, hq, hthere, bind_eq_bind, bind_some,
            ne_eq, not_false_eq_true]
    · exact absurd hk ho

/-! ### `Exists` -/

theorem Rep.entry (h : Rep hash pre db eff q c t) (hmod : q.modified = false) : c = digest hash t := by
  cases q with
  | null => exact h.2.1
  | node frm children =>
    obtain ⟨loc, val, ch, rfl, -, -, -, hset⟩ := h
    exact (hset hmod).entry

theorem digest_place (hw : t.WF p) (h : (digest hash t).childtype ≠ .none) :
    ∃ l, (digest hash t).sublocation = location l ∧ (∀ p', t.WF p' → p' <+: l) ∧ ∀ k, t.find k ≠ none → l <+: k := by
  rw [Ne, digest_type, Bool.not_eq_false] at h
  rw [← digest_compress]
  cases hc : t.compress with
  | empty => simp [hc, isNode] at h
  | node l val ch =>
    refine ⟨l, ?_, fun p' hp' => ?_, fun k hk => ?_⟩
    · have hcan : (node l val ch).Canonical := hc ▸ canonical_compress t
      rcases digest_canonical hash hcan with ⟨v, rfl, -, hd⟩ | ⟨hd, -⟩ <;> rw [hd]
      rfl
    · have hcw := hp'.compress
      rw [hc] at hcw
      exact hcw.1
    · rw [← find_compress hw, hc] at hk
      by_contra ho
      exact hk (find_outside ho)

theorem existsKey_spec (h : Rep hash pre db eff (.node frm children) c (.node loc val ch))
    (hw : (node loc val ch).WF p) (hmod : frm.modified = false) (hk : loc <+: k)
    (hfuel : k.length - loc.length < fuel) :
    ∃ b children', existsKey pre db (location k) fuel (.node frm children) = some (b, .node frm children') ∧
      Rep hash pre db eff (.node frm children') c (.node loc val ch) ∧
      (b = false → (node loc val ch).find k = none) := by
  induction fuel generalizing frm children c loc val ch p with
  | zero => omega
  | succ fuel ih =>
    have hloc := h.location
    rcases place_cases loc k with rfl | ⟨i, hi⟩ | ho
    · exact ⟨true, _, by simp only [existsKey, hloc, ↓reduceIte], h, nofun⟩
    · have hne : frm.location ≠ location k := hloc ▸ location_ne_of_branch hi
      have hnb : nextBranch (commonPrefix frm.location (location k)) (location k) = some i := hloc ▸ descend hi
      have hbelow : ∀ j, (children j).modified = false := by
        obtain ⟨_, _, _, -, -, -, -, hset⟩ := id h
        exact (hset hmod).below
      have hentry := (h.child i).entry (hbelow i)
      by_cases hnone : (frm.info.branch i).childtype = .none
      · refine ⟨false, _, by simp only [existsKey, hne, ↓reduceIte, hnb, hnone, bind_eq_bind, bind_some],
          h, fun _ => ?_⟩
        rw [find_branch hi]
        rw [hentry, digest_type] at hnone
        by_contra hf
        simp [(isNode_compress_iff (hw.2 i)).mpr ⟨k, hf⟩] at hnone
      · obtain ⟨l, hl, hil, hkeys⟩ := digest_place (hw.2 i) (hentry ▸ hnone)
        rw [← hentry] at hl
        have hcommon : commonPrefix (frm.info.branch i).sublocation (location k) = location (lcp l k) := by
          rw [hl, commonPrefix_location]
        by_cases hlk : l <+: k
        · have hthere : ¬ (commonPrefix (frm.info.branch i).sublocation (location k) ≠ (frm.info.branch i).sublocation) := by
            rw [hcommon, hl, lcp_eq_left.mpr hlk]
            exact fun hne => hne rfl
          obtain ⟨q, hq, hrep, hqmod, hnull⟩ := childMayFromDB_spec (hw.2 i) (h.child i)
          cases q with
          | null =>
            obtain ⟨hempty, -⟩ := hnull rfl
            rw [hentry, hempty] at hnone
            exact absurd rfl hnone
          | node frm2 children2 =>
            obtain ⟨loc2, val2, ch2, hch, hloc2, -⟩ := id hrep
            have hw2 : (node loc2 val2 ch2).WF loc2 := ⟨prefix_refl loc2, (hch ▸ hw.2 i).2⟩
            have hlt : loc.length < loc2.length := length_lt_of_branch (hch ▸ hw.2 i).1
            have hmod2 : frm2.modified = false := hqmod.trans (hbelow i)
            have hdown : loc2 <+: k := (hil loc2 (hch ▸ hw2)).trans hlk
            obtain ⟨b, children2', hex, hrep', hfalse⟩ := ih (hch ▸ hrep) hw2 hmod2 hdown (by
              have := length_lt_of_branch hi
              omega)
            refine ⟨b, update children i (.node frm2 children2'), ?_, ?_, fun hb => ?_⟩
            · simp only [existsKey, hne, ↓reduceIte, hnb, hnone, hthere, hq, hex, bind_eq_bind, bind_some]
            · exact rep_load h (hch ▸ hrep') (hmod2.trans (hbelow i).symm)
            · rw [find_branch hi, hch]
              exact hfalse hb
        · have hthere : commonPrefix (frm.info.branch i).sublocation (location k) ≠ (frm.info.branch i).sublocation := by
            rw [hcommon, hl, Ne, location_inj, lcp_eq_left]
            exact hlk
          refine ⟨false, _, by simp only [existsKey, hne, ↓reduceIte, hnb, hnone, hthere, bind_eq_bind,
            bind_some, ne_eq, not_false_eq_true], h, fun _ => ?_⟩
          rw [find_branch hi]
          by_contra hf
          exact hlk (hkeys k hf)
    · exact absurd hk ho

end
end OpenSesame
