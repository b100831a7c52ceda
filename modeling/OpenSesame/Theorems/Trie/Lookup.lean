import OpenSesame.Theorems.Trie.Canonical

/-! # `GetNode`

The descent takes the branch of the next nibble without comparing the child's location with the one
asked for, so it may enter a subtree that the location does not lead to. It meets nodes that a deletion
has left in memory like any others. -/

namespace OpenSesame
open Patricia RadixTree List Option

section
variable {hash : Bytes → Bytes} {pre : Bytes} {db eff : Db} {c : Child} {m : Bytes → Option Bytes}
  {val : Option Bytes} {ch : Nibble → PTree} {t : PTree} {p loc l : List Nibble} {lc : Location} {frm f : NodeFrm}
  {children : Nibble → Pointer} {q : Pointer} {i : Nibble}

/-! ### The next branch of any location -/

/-- The given location has whole bytes, and their nibbles begin the path. -/
def Overruns (lc : Location) (l : List Nibble) : Prop :=
  (lc.tail = [] ∨ lc.head? ≠ some oddPrefix) ∧ nibbles lc.tail <+: l

/-- A location of whole bytes is read as that of their nibbles, whatever its first byte is. -/
theorem nextBranch_whole {a : UInt8} {r : Bytes} (ha : a ≠ oddPrefix) :
    nextBranch (commonPrefix (a :: r) (location l)) (a :: r) =
      nextBranch (location (lcp (nibbles r) l)) (location (nibbles r)) := by
  have hcommon : commonPrefix (a :: r) (location l) = location (lcp (nibbles r) l) := by
    rw [← commonPrefix_location, location_nibbles, key2Location]
    simp only [location, commonPrefix, beq_eq_false_iff_ne.mpr ha]
    rfl
  -- the first byte is not read
  have hread (x : List Nibble) : nextBranch (location x) (a :: r) = nextBranch (location x) (evenPrefix :: r) := by
    rcases x with - | ⟨y, - | ⟨z, x⟩⟩ <;> simp [nextBranch, location, pack, parityByte, evenPrefix, oddPrefix]
  rw [hcommon, hread, location_nibbles, key2Location]

theorem commonPrefixLoop_short (odd2 : Bool) (r r' : Bytes) (hr : r ≠ []) :
    (commonPrefixLoop true odd2 r r').1.length ≤ r.length ∧ ((commonPrefixLoop true odd2 r r').2 ≠ oddPrefix →
      (commonPrefixLoop true odd2 r r').1.length < r.length) := by
  generalize hodd : true = odd1
  fun_induction commonPrefixLoop odd1 odd2 r r' with
  | case1 => simp
  | case2 => simp
  | case3 => simp
  | case4 => simp
  | case5 c1 r1 c2 r2 hhigh hend hend' hlow rest ih =>
    have hr1 : r1 ≠ [] := fun he => hend ⟨he, hodd.symm⟩
    simpa using ih hr1
  | case6 => exact ⟨Nat.zero_le _, fun _ => length_pos_iff.mpr hr⟩

theorem nextBranch_eq_none (hlc : lc ≠ []) :
    nextBranch (commonPrefix lc (location l)) lc = none ↔ Overruns lc l := by
  obtain ⟨a, r, rfl⟩ := exists_cons_of_ne_nil hlc
  rcases eq_or_ne a oddPrefix with rfl | ha
  · rcases eq_or_ne r [] with rfl | hr
    · simp [Overruns, nextBranch, commonPrefix, location, commonPrefixLoop, nibbles, evenPrefix, oddPrefix]
    · obtain ⟨hle, hlt⟩ := commonPrefixLoop_short (parityByte l == oddPrefix) r (pack l) hr
      have hnot : ¬Overruns (oddPrefix :: r) l := by simp [Overruns, hr]
      refine iff_of_false ?_ hnot
      simp only [nextBranch, commonPrefix, location, beq_self_eq_true, getElem?_cons_zero, bind_eq_bind, bind_some,
        length_cons, Nat.add_sub_cancel]
      split
      · rw [getElem?_eq_getElem (by rw [length_cons]; omega)]
        simp
      · rename_i hpar
        rw [getElem?_eq_getElem (by rw [length_cons]; exact Nat.succ_lt_succ (hlt hpar))]
        simp
  · rw [nextBranch_whole ha]
    have hover : Overruns (a :: r) l ↔ nibbles r <+: l := by simp [Overruns, ha]
    rw [hover]
    by_cases hpre : nibbles r <+: l
    · rw [lcp_eq_left.mpr hpre, location_nibbles]
      simp [hpre, nextBranch, key2Location, evenPrefix, oddPrefix]
    · refine iff_of_false ?_ hpre
      rcases place_cases (lcp (nibbles r) l) (nibbles r) with he | ⟨i, hi⟩ | ho
      · exact absurd (lcp_eq_left.mp he.symm) hpre
      · simp [nextBranch_of_branch hi]
      · exact absurd (lcp_prefix_left _ _) ho

theorem nextBranch_toward (hi : loc ++ [i] <+: l) (ho : Overruns lc l) (hn : ¬Overruns lc loc) :
    nextBranch (commonPrefix lc (location loc)) lc = some i := by
  obtain ⟨hwhole, hpre⟩ := ho
  have hlonger : ¬nibbles lc.tail <+: loc := fun h => hn ⟨hwhole, h⟩
  rcases lc with - | ⟨a, r⟩
  · exact absurd nil_prefix hlonger
  have ha : a ≠ oddPrefix := by
    rintro rfl
    rcases hwhole with hnil | hodd
    · rw [tail_cons] at hnil
      rw [tail_cons, hnil] at hlonger
      exact hlonger nil_prefix
    · exact hodd rfl
  have hdown : loc ++ [i] <+: nibbles r := by
    rcases prefix_or_prefix_of_prefix hi hpre with h | h
    · exact h
    · rcases prefix_concat_iff.mp h with he | h
      · exact he ▸ prefix_refl _
      · exact absurd h hlonger
  rw [nextBranch_whole ha, lcp_eq_right.mpr (prefix_of_branch hdown)]
  exact nextBranch_of_branch hdown

/-! ### The nodes that are met -/

/-- The nodes at and below a pointer, in memory or in the database. -/
inductive Member (keyPrefix : Bytes) (db : Db) : Pointer → NodeFrm → Prop
  | here {frm : NodeFrm} {children : Nibble → Pointer} : Member keyPrefix db (.node frm children) frm
  | child {frm f : NodeFrm} {children : Nibble → Pointer} {i : Nibble} {q : Pointer}
      (hq : childMayFromDB keyPrefix db frm children i = some q) (hf : Member keyPrefix db q f) :
      Member keyPrefix db (.node frm children) f

theorem Rep.info (h : Rep hash pre db eff (.node frm children) c (.node loc val ch)) (hm : frm.modified = false) :
    frm.info = topInfo hash (.node loc val ch) := by
  obtain ⟨loc', val', ch', e, -, -, hch, hset⟩ := h
  cases e
  obtain ⟨-, -, -, hbelow, hown⟩ := hset hm
  have hbranch : frm.info.branch = fun i => digest hash (ch i) := funext fun i => (hch i).entry (hbelow i)
  rw [topInfo_node, infoOf, ← hown, ← hbranch]

theorem member_spec (hf : Member pre db q f) (h : Rep hash pre db eff q c t) (hw : t.WF p) :
    ∃ l, f.location = location l ∧ (t.sub l).isNode = true ∧
      (q.modified = false → f.info = topInfo hash (t.sub l)) := by
  induction hf generalizing c t p with
  | here =>
    obtain ⟨loc, val, ch, rfl, hloc, -⟩ := id h
    exact ⟨loc, hloc, by rw [sub_self]; rfl, fun hm => by rw [sub_self]; exact h.info hm⟩
  | @child _ _ _ i _ hq _ ih =>
    obtain ⟨loc, val, ch, rfl, -, -, -, hset⟩ := id h
    obtain ⟨q', hq', hrep, hmod, -⟩ := childMayFromDB_spec (hw.2 i) (h.child i)
    obtain rfl := some.inj (hq.symm.trans hq')
    obtain ⟨l, hl, hnode, hinfo⟩ := ih hrep (hw.2 i)
    have hsub : (node loc val ch).sub l = (ch i).sub l := sub_branch (prefix_of_isNode (hw.2 i) hnode)
    exact ⟨l, hl, by rwa [hsub], fun hm => by rw [hsub]; exact hinfo (hmod.trans ((hset hm).below i))⟩

theorem exists_member (h : Rep hash pre db eff (.node frm children) c t) (hw : t.WF p)
    (hl : (t.sub l).isNode = true) : ∃ f, Member pre db (.node frm children) f ∧ f.location = location l := by
  induction t generalizing frm children c p with
  | empty => cases hl
  | node loc val ch ih =>
    rcases place_cases loc l with rfl | ⟨i, hi⟩ | ho
    · exact ⟨frm, .here, h.location⟩
    · rw [sub_branch hi] at hl
      obtain ⟨q, hq, hrep, -, hnull⟩ := childMayFromDB_spec (hw.2 i) (h.child i)
      cases q with
      | null =>
        rw [(hnull rfl).1] at hl
        cases hl
      | node f2 c2 =>
        obtain ⟨f, hf, hloc⟩ := ih i hrep (hw.2 i) hl
        exact ⟨f, .child hq hf, hloc⟩
    · rw [sub_outside ho] at hl
      cases hl

theorem member_below (h : Rep hash pre db eff (.node frm children) c (.node loc val ch))
    (hw : (node loc val ch).WF p) (hq : childMayFromDB pre db frm children i = some q) (hf : Member pre db q f) :
    ∃ l, f.location = location l ∧ loc ++ [i] <+: l ∧ Rep hash pre db eff q (frm.info.branch i) (ch i) := by
  obtain ⟨q', hq', hrep, -⟩ := childMayFromDB_spec (hw.2 i) (h.child i)
  obtain rfl := some.inj (hq.symm.trans hq')
  obtain ⟨l, hl, hnode, -⟩ := member_spec hf hrep (hw.2 i)
  exact ⟨l, hl, prefix_of_isNode (hw.2 i) hnode, hrep⟩

/-! ### The three ways a search ends -/

theorem getNode_found (hf : Member pre db q f) (h : Rep hash pre db eff q c t) (hw : t.WF p) :
    ∃ q' N, ∀ fuel, N ≤ fuel → getNode pre db f.location fuel q = some (some f.info, q') := by
  induction hf generalizing c t p with
  | @here frm children =>
    refine ⟨.node frm children, 1, fun fuel hfuel => ?_⟩
    obtain ⟨fuel, rfl⟩ := Nat.exists_eq_add_of_le' hfuel
    rw [getNode, if_pos rfl]
  | @child frm f children i q hq hf ih =>
    obtain ⟨loc, val, ch, rfl, hloc, -⟩ := id h
    obtain ⟨l, hl, hpl, hrep⟩ := member_below h hw hq hf
    obtain ⟨q', N, hN⟩ := ih hrep (hw.2 i)
    have hne : frm.location ≠ f.location := hloc ▸ hl ▸ location_ne_of_branch hpl
    have hbranch : nextBranch (commonPrefix f.location frm.location) f.location = some i := by
      rw [hl, hloc, commonPrefix_location, lcp_comm, ← commonPrefix_location]
      exact descend hpl
    cases q with
    | null => cases hf
    | node f2 c2 =>
      refine ⟨.node frm (Function.update children i q'), N + 1, fun fuel hfuel => ?_⟩
      obtain ⟨fuel, rfl⟩ : ∃ g, fuel = g + 1 := ⟨fuel - 1, by omega⟩
      rw [getNode, if_neg hne]
      simp only [hbranch, hq, hN fuel (by omega), bind_eq_bind, bind_some]

theorem getNode_missing (hlc : lc ≠ []) (h : Rep hash pre db eff (.node frm children) c t) (hw : t.WF p)
    (hnone : ∀ f, Member pre db (.node frm children) f →
      f.location ≠ lc ∧ ∀ l, f.location = location l → ¬Overruns lc l) :
    ∃ q' N, ∀ fuel, N ≤ fuel → getNode pre db lc fuel (.node frm children) = some (none, q') := by
  induction t generalizing frm children c p with
  | empty =>
    obtain ⟨_, _, _, e, -⟩ := h
    cases e
  | node loc val ch ih =>
    obtain ⟨hne, hover⟩ := hnone frm .here
    obtain ⟨i, hi⟩ : ∃ i, nextBranch (commonPrefix lc frm.location) lc = some i := by
      rw [← ne_none_iff_exists', h.location]
      exact (nextBranch_eq_none hlc).not.mpr (hover loc h.location)
    obtain ⟨q, hq, hrep, -⟩ := childMayFromDB_spec (hw.2 i) (h.child i)
    cases q with
    | null =>
      refine ⟨.node frm children, 1, fun fuel hfuel => ?_⟩
      obtain ⟨fuel, rfl⟩ := Nat.exists_eq_add_of_le' hfuel
      rw [getNode, if_neg hne]
      simp only [hi, hq, bind_eq_bind, bind_some]
    | node f2 c2 =>
      obtain ⟨q', N, hN⟩ := ih i hrep (hw.2 i) fun f hf => hnone f (.child hq hf)
      refine ⟨.node frm (Function.update children i q'), N + 1, fun fuel hfuel => ?_⟩
      obtain ⟨fuel, rfl⟩ : ∃ g, fuel = g + 1 := ⟨fuel - 1, by omega⟩
      rw [getNode, if_neg hne]
      simp only [hi, hq, hN fuel (by omega), bind_eq_bind, bind_some]

theorem getNode_throws (hlc : lc ≠ []) (hf : Member pre db q f) (h : Rep hash pre db eff q c t) (hw : t.WF p)
    (hl : f.location = location l) (ho : Overruns lc l) (hnone : ∀ f, Member pre db q f → f.location ≠ lc) :
    ∀ fuel, getNode pre db lc fuel q = none := by
  induction hf generalizing c t p with
  | here =>
    rintro (- | fuel)
    · rfl
    · rw [getNode, if_neg (hnone _ .here), hl, (nextBranch_eq_none hlc).mpr ho]
      rfl
  | @child frm f children i q hq hf ih =>
    obtain ⟨loc, val, ch, rfl, hloc, -⟩ := id h
    obtain ⟨l', hl', hpl, hrep⟩ := member_below h hw hq hf
    obtain rfl := location_inj.mp (hl.symm.trans hl')
    rintro (- | fuel)
    · rfl
    rw [getNode, if_neg (hnone _ .here), hloc]
    by_cases hhere : Overruns lc loc
    · rw [(nextBranch_eq_none hlc).mpr hhere]
      rfl
    · simp only [nextBranch_toward hpl ho hhere, hq, bind_eq_bind, bind_some]
      cases q with
      | null => cases hf
      | node f2 c2 => simp only [ih hrep (hw.2 i) hl (fun g hg => hnone g (.child hq hg)) fuel, bind_none]

/-! ### The nodes of the trie -/

/-- The nodes of the trie of a map, with their locations: the root and the places where two keys part have records, and
    the other keys are leaves. -/
inductive NodeOf (hashCrypto : Bytes → Bytes) (keyPrefix : Bytes) (db : Db) (m : Bytes → Option Bytes) :
    Location → Node → Prop
  | inner {l : List Nibble} {info : Node} (place : l = [] ∨ Branches (pathMap m) l)
      (stored : storageLoad keyPrefix db (location l) = some (some info)) :
      NodeOf hashCrypto keyPrefix db m (location l) info
  | leaf {k v : Bytes} (value : m k = some v) (place : ¬(k = [] ∨ Branches (pathMap m) (nibbles k))) :
      NodeOf hashCrypto keyPrefix db m (key2Location k) { own := ⟨key2Location k, hashCrypto v, .leaf⟩ }

theorem digest_eq_empty (hw : t.WF p) (h : ∀ k, p <+: k → t.find k = none) : digest hash t = {} := by
  have hcompress : t.compress = .empty := by
    rw [← isNode_eq_false, ← Bool.not_eq_true, isNode_compress_iff hw]
    rintro ⟨k, hk⟩
    exact hk (h k (hw.prefix_of_find hk))
  rw [← digest_compress, hcompress]
  rfl

theorem NodeOf.topInfo {info : Node} (h : NodeOf hash pre db m lc info) (hw : (node [] val ch).WF [])
    (hs : Synced hash pre db (.node [] val ch)) (hroot : db (nodeKey pre []) = record hash (.node [] val ch))
    (hfind : ∀ l, (node [] val ch).find l = pathMap m l) :
    ∃ l, lc = location l ∧ ((node [] val ch).sub l).isNode = true ∧
      info = OpenSesame.topInfo hash ((node [] val ch).sub l) := by
  have hmap : (node [] val ch).find = pathMap m := funext hfind
  cases h with
  | @inner l info place stored =>
    have hnode : ((node [] val ch).sub l).isNode = true := by
      rcases place with rfl | hbranch
      · rw [sub_self]
        rfl
      · exact isNode_sub_of_branches hw (hmap ▸ hbranch)
    refine ⟨l, rfl, hnode, ?_⟩
    have hrec : db (location2DBkey pre (location l) false) = record hash ((node [] val ch).sub l) := by
      rcases eq_or_ne l [] with rfl | hl
      · rw [sub_self]
        exact hroot
      · exact hs.node l hl
    cases hsub : (node [] val ch).sub l with
    | empty =>
      rw [hsub] at hnode
      cases hnode
    | node l' val' ch' =>
      rw [hsub, record] at hrec
      split at hrec
      · simp [storageLoad, hrec] at stored
      · simpa [storageLoad, hrec, Node.parse_serialize] using stored.symm
  | @leaf k v value place =>
    have hk : (node [] val ch).find (nibbles k) = some v := by rw [hfind, pathMap_nibbles, value]
    cases hsub : (node [] val ch).sub (nibbles k) with
    | empty =>
      rw [find_eq_of_sub hsub] at hk
      cases hk
    | node l val' ch' =>
      obtain rfl := loc_of_sub hsub
      have hwf : (node (nibbles k) val' ch').WF (nibbles k) := hsub ▸ hw.sub (nibbles k)
      obtain rfl : val' = some v := by
        rw [find, hsub] at hk
        exact hk
      refine ⟨nibbles k, (location_nibbles k).symm, by rw [hsub]; rfl, ?_⟩
      -- no key goes on from this one
      have hempty (i : Nibble) : digest hash (ch' i) = {} := by
        refine digest_eq_empty (hwf.2 i) fun k' hik => ?_
        rw [← find_branch hik, ← hsub, find_sub (by rw [hsub]; rfl) (prefix_of_branch hik), hmap]
        by_contra hne
        exact place (.inr (.inr ⟨by rw [pathMap_nibbles, value]; simp, i, k', hik, hne⟩))
      rw [hsub, topInfo_node, infoOf, funext hempty, leafChild, location_nibbles]

/-- What `GetNode` should return: the node at the location if the trie has one, and an empty message if not. -/
def Answers (hashCrypto : Bytes → Bytes) (keyPrefix : Bytes) (db : Db) (m : Bytes → Option Bytes) (lc : Location)
    (r : Option Node) : Prop :=
  (∀ info, NodeOf hashCrypto keyPrefix db m lc info → r = some info) ∧
    ((∀ info, ¬NodeOf hashCrypto keyPrefix db m lc info) → r = none)

/-- After `UpdateHash` and the write of the batch, `GetNode` returns, with what it should, just when the trie has a node
    at the location, or no node that is met has the location or is overrun by it. -/
theorem trie_get_node (hashCrypto : Bytes → Bytes) (keyPrefix : Bytes) (d : Db)
    (h : ∀ x, d (keyPrefix ++ x) = none) (depth : ℤ) (ops : List TrieOp) (ha : admissible {} ops = true) :
    ∃ s, runTrie hashCrypto keyPrefix d depth (ops ++ [.updateHash, .addToDB]) = some s ∧ ∀ given : Location,
      ((∃ r t N, (∀ fuel, N ≤ fuel → s.trie.getNode keyPrefix s.db fuel given = some (r, t)) ∧
          Answers hashCrypto keyPrefix s.db (finalMap ops) (givenLocation given) r) ↔
        (∃ info, NodeOf hashCrypto keyPrefix s.db (finalMap ops) (givenLocation given) info) ∨
          ∀ f, Member keyPrefix s.db s.trie.root f → f.location ≠ givenLocation given ∧
            ∀ l, f.location = location l → ¬Overruns (givenLocation given) l) := by
  obtain ⟨s, _, frm, children, val, ch, hrun, hinv, hmod, -, hsync, hroot⟩ := run_final hashCrypto h depth ha
  refine ⟨s, hrun, fun given => ?_⟩
  have hlc : givenLocation given ≠ [] := by
    unfold givenLocation
    split
    · simp
    · assumption
  have hget (fuel : ℕ) : s.trie.getNode keyPrefix s.db fuel given =
      (getNode keyPrefix s.db (givenLocation given) fuel (.node frm children)).map
        fun r => (r.1, { s.trie with root := r.2 }) := by
    rw [KVTrie.getNode, hinv.root, map_eq_bind]
    rfl
  simp only [hget, hinv.root]
  generalize givenLocation given = lc at hlc ⊢
  constructor
  · rintro ⟨r, t, N, hreturns, -, hempty⟩
    by_contra hnot
    obtain ⟨hnode, hmet⟩ := not_or.mp hnot
    obtain rfl := hempty (not_exists.mp hnode)
    by_cases hat : ∃ f, Member keyPrefix s.db (.node frm children) f ∧ f.location = lc
    · -- a node that was left over
      obtain ⟨f, hf, rfl⟩ := hat
      obtain ⟨q, M, hM⟩ := getNode_found hf hinv.rep hinv.wf
      have hfound := hreturns (max N M) (le_max_left N M)
      simp [hM (max N M) (le_max_right N M)] at hfound
    · simp only [not_exists, not_and] at hat
      refine hmet fun f hf => ⟨hat f hf, fun l hl ho => ?_⟩
      have hthrows := hreturns N (le_refl N)
      simp [getNode_throws hlc hf hinv.rep hinv.wf hl ho hat N] at hthrows
  · rintro (⟨info, hnode⟩ | hmet)
    · obtain ⟨l, rfl, hsub, hinfo⟩ := hnode.topInfo hinv.wf hsync hroot hinv.find
      obtain ⟨f, hf, hloc⟩ := exists_member hinv.rep hinv.wf hsub
      obtain ⟨l', hl', -, hsame⟩ := member_spec hf hinv.rep hinv.wf
      obtain rfl := location_inj.mp (hloc.symm.trans hl')
      obtain ⟨q, N, hN⟩ := getNode_found hf hinv.rep hinv.wf
      refine ⟨some info, { s.trie with root := q }, N, fun fuel hfuel => ?_, fun info' hnode' => ?_,
        fun hnone => absurd hnode (hnone info)⟩
      · rw [← hloc, hN fuel hfuel, hsame hmod, hinfo]
        rfl
      · obtain ⟨l', hl', -, hinfo'⟩ := hnode'.topInfo hinv.wf hsync hroot hinv.find
        obtain rfl := location_inj.mp hl'
        rw [hinfo, hinfo']
    · obtain ⟨q, N, hN⟩ := getNode_missing hlc hinv.rep hinv.wf hmet
      refine ⟨none, { s.trie with root := q }, N, fun fuel hfuel => by rw [hN fuel hfuel]; rfl, fun info hnode => ?_,
        fun _ => rfl⟩
      -- a node of the trie would be met
      obtain ⟨l, rfl, hsub, -⟩ := hnode.topInfo hinv.wf hsync hroot hinv.find
      obtain ⟨f, hf, hloc⟩ := exists_member hinv.rep hinv.wf hsub
      exact absurd hloc (hmet f hf).1

theorem trie_get_node_root :
    ∃ s, runTrie (List.take 4) [7] (fun _ => none) 0 (directOps ++ [.updateHash, .addToDB]) = some s ∧
      ∃ r t N, (∀ fuel, N ≤ fuel → s.trie.getNode [7] s.db fuel [] = some (r, t)) ∧
        Answers (List.take 4) [7] s.db (finalMap directOps) [0] r := by
  obtain ⟨s, hrun, hget⟩ := trie_get_node (List.take 4) [7] (fun _ => none) (fun _ => rfl) 0 directOps (by decide)
  refine ⟨s, hrun, (hget []).mpr (.inl ?_)⟩
  have hstored : ((runTrie (List.take 4) [7] (fun _ => none) 0 (directOps ++ [.updateHash, .addToDB])).bind fun s =>
      (storageLoad [7] s.db (location [])).join).isSome = true := by
    decide +kernel
  rw [hrun, bind_some, isSome_iff_exists] at hstored
  obtain ⟨info, hinfo⟩ := hstored
  exact ⟨info, .inner (.inl rfl) (join_eq_some_iff.mp hinfo)⟩

/-- A location of whole bytes that a node's location goes on from is read beyond its end. -/
theorem trie_get_node_throws :
    ∃ s, runTrie (List.take 4) [7] (fun _ => none) 0 [.set [0x12, 0x34] [1], .updateHash, .addToDB] = some s ∧
      ∀ fuel, s.trie.getNode [7] s.db fuel [0, 0x12] = none := by
  refine ⟨_, rfl, fun fuel => ?_⟩
  rcases fuel with _ | _ | fuel
  · rfl
  · rfl
  · rfl

end
end OpenSesame
