import Mathlib.Data.Finset.Lattice.Fold
import OpenSesame.Theorems.Trie.Canonical

/-! # `GetAll`

The search reads the records of the compressed tree. -/

namespace OpenSesame
open Patricia RadixTree Option List

section
variable {hash : Bytes → Bytes} {pre : Bytes} {db : Db} {m : Bytes → Option Bytes} {val : Option Bytes}
  {ch : Nibble → PTree} {t : PTree} {p q loc l : List Nibble}

theorem nibbles_append (a b : Bytes) : nibbles (a ++ b) = nibbles a ++ nibbles b := flatMap_append

theorem nibbles_initial {a b : Bytes} : nibbles a <+: nibbles b ↔ a <+: b := by
  constructor
  · rintro ⟨r, hr⟩
    have he : r.length % 2 = 0 := by
      have hlen := congrArg List.length hr
      rw [length_append] at hlen
      have ha := length_nibbles a
      have hb := length_nibbles b
      omega
    rw [← nibbles_pack he, ← nibbles_append] at hr
    exact ⟨pack r, by rw [← pack_nibbles (a ++ pack r), hr, pack_nibbles]⟩
  · rintro ⟨r, rfl⟩
    rw [nibbles_append]
    exact prefix_append _ _

/-! ### The records of a canonical tree -/

/-- A node with its record and the records of the canonical trees below it; its keys have whole bytes. -/
structure Stored (hashCrypto : Bytes → Bytes) (keyPrefix : Bytes) (db : Db) (loc : List Nibble) (val : Option Bytes)
    (ch : Nibble → PTree) : Prop where
  wf : (node loc val ch).WF loc
  canonical : ∀ i, (ch i).Canonical
  below : ∀ i, Holds hashCrypto keyPrefix db (ch i)
  record : db (nodeKey keyPrefix loc) = some (topInfo hashCrypto (.node loc val ch)).serialize
  leaf : loc.length % 2 = 0 → db (leafKey keyPrefix loc) = val
  even : ∀ k, (node loc val ch).find k ≠ none → k.length % 2 = 0

theorem Stored.load (h : Stored hash pre db loc val ch) :
    storageLoad pre db (location loc) = some (some (topInfo hash (.node loc val ch))) := by
  have hrec : db (location2DBkey pre (location loc) false) = _ := h.record
  rw [storageLoad, hrec]
  simp [Node.parse_serialize]

theorem Stored.find_child (h : Stored hash pre db loc val ch) {i : Nibble} {k : List Nibble}
    (hk : (ch i).find k ≠ none) : (node loc val ch).find k = (ch i).find k :=
  find_branch ((h.wf.2 i).prefix_of_find hk)

theorem record_leaf (hl : l ≠ []) (v : Bytes) : record hash (.node l (some v) fun _ => .empty) = none := by
  have hcount : (topInfo hash (.node l (some v) fun _ => .empty)).branchCount = 1 := by
    rw [topInfo_node, branchCount_infoOf]
    simp [Node.live, infoOf, digest]
  rw [record, if_pos ⟨hl, hcount.le⟩]

theorem Stored.child (h : Stored hash pre db loc val ch) (i : Nibble) : (ch i = .empty ∧ digest hash (ch i) = {}) ∨
    (∃ l v, ch i = .leaf l v ∧ digest hash (ch i) = leafChild hash l (some v) ∧
      db (nodeKey pre l) = none ∧ storageGetLeaf pre db (location l) = some v) ∨
    ∃ l val' ch', ch i = .node l val' ch' ∧ (digest hash (ch i)).childtype = .inner ∧
      (digest hash (ch i)).sublocation = location l ∧ Stored hash pre db l val' ch' := by
  have hc := h.canonical i
  have hw := h.wf.2 i
  have hholds := h.below i
  have heven : ∀ k, (ch i).find k ≠ none → k.length % 2 = 0 := fun k hk => h.even k (by rwa [h.find_child hk])
  cases hi : ch i with
  | empty => exact Or.inl ⟨rfl, rfl⟩
  | node l val' ch' =>
    rw [hi] at hc hw hholds heven
    rcases digest_canonical hash hc with ⟨v, rfl, hempty, hd⟩ | ⟨hd, hrec⟩
    · have hl : l.length % 2 = 0 := heven l (by simp [find_self])
      obtain rfl : ch' = fun _ => .empty := funext hempty
      refine Or.inr (Or.inl ⟨l, v, rfl, hd, ?_, hholds.top.2 hl⟩)
      have hl0 : l ≠ [] := by
        rintro rfl
        simpa using hw.1
      rw [hholds.top.1, record_leaf hl0]
    · refine Or.inr (Or.inr ⟨l, val', ch', rfl, by rw [hd], by rw [hd], ?_⟩)
      exact ⟨⟨prefix_refl l, hw.2⟩, hc.2, hholds.branch hw, hholds.top.1.trans hrec, hholds.top.2, heven⟩

theorem associated_child {inner : Option (List Bytes)} (h : Stored hash pre db loc val ch) (i : Nibble)
    (hinner : ∀ l val' ch', ch i = .node l val' ch' → Stored hash pre db l val' ch' →
      (digest hash (ch i)).sublocation = location l → inner = some ((ch i).entries.map Prod.snd)) :
    associatedChild pre db (digest hash (ch i)) inner = some ((ch i).entries.map Prod.snd) := by
  rcases h.child i with ⟨he, hd⟩ | ⟨l, v, he, hd, -, hv⟩ | ⟨l, val', ch', he, htype, hsub, hs⟩
  · rw [hd, he]
    rfl
  · rw [hd, he]
    simp [associatedChild, leafChild, hv, leaf, entries]
  · rw [associatedChild, htype]
    exact hinner l val' ch' he hs hsub

theorem storageAssociated_spec (hash : Bytes → Bytes) (pre : Bytes) (db : Db) (t : PTree) :
    ∃ N, ∀ fuel, N ≤ fuel → ∀ loc val ch, t = .node loc val ch → Stored hash pre db loc val ch →
      storageAssociated pre db fuel (location loc) = some (t.entries.map Prod.snd) := by
  induction t with
  | empty => exact ⟨0, by rintro _ _ _ _ _ ⟨⟩⟩
  | node loc val ch ih =>
    -- enough fuel for each child is enough for all of them
    choose N hN using ih
    refine ⟨Finset.univ.sup N + 1, fun fuel hfuel loc' val' ch' e h => ?_⟩
    cases e
    obtain ⟨fuel, rfl⟩ : ∃ f, fuel = f + 1 := ⟨fuel - 1, by omega⟩
    have hbelow : ∀ i, associatedChild pre db (digest hash (ch i))
        (storageAssociated pre db fuel (digest hash (ch i)).sublocation) = some ((ch i).entries.map Prod.snd) := by
      intro i
      refine associated_child h i fun l val' ch' hi hs hsub => ?_
      rw [hsub]
      exact hN i fuel ((Finset.le_sup (Finset.mem_univ i)).trans (by omega)) l val' ch' hi hs
    have hown : (if (leafChild hash loc val).childtype = .leaf then [(storageGetLeaf pre db (location loc)).getD []]
        else []) = (val.map fun v => (loc, v)).toList.map Prod.snd := by
      cases hv : val with
      | none => rfl
      | some v =>
        have he : loc.length % 2 = 0 := h.even loc (by simp [find_self, hv])
        have hleaf : storageGetLeaf pre db (location loc) = some v := (h.leaf he).trans hv
        simp [leafChild, hleaf]
    rw [storageAssociated, h.load]
    simp only [topInfo_node, infoOf, Option.bind_eq_bind, Option.bind_some, hbelow, hown, entries]
    rw [← Option.pure_def, mapM_pure]
    simp [flatMap, Function.comp_def]

/-- `r` is the values of the entries of the map whose keys start with `q`, each once. -/
def Lists (find : List Nibble → Option Bytes) (q : List Nibble) (r : List Bytes) : Prop :=
  ∃ es : List (List Nibble × Bytes), (es.map Prod.fst).Nodup ∧ (∀ k v, (k, v) ∈ es ↔ q <+: k ∧ find k = some v) ∧
    r = es.map Prod.snd

theorem lists_nil {find : List Nibble → Option Bytes} (h : ∀ k, q <+: k → find k = none) : Lists find q [] :=
  ⟨[], by simp, fun k v => by simpa using fun hk => by simp [h k hk], rfl⟩

theorem Lists.congr {find find' : List Nibble → Option Bytes} {r : List Bytes} (h : Lists find' q r)
    (hf : ∀ k, q <+: k → find k = find' k) : Lists find q r := by
  obtain ⟨es, hnodup, hmem, rfl⟩ := h
  refine ⟨es, hnodup, fun k v => (hmem k v).trans (and_congr_right fun hk => ?_), rfl⟩
  rw [hf k hk]

/-! ### The search -/

theorem getAllItem_absent {node location : Location} (h : storageLoad pre db node = some none) (fuel : ℕ) :
    getAllItem pre db location (fuel + 1) node = some [] := by
  rw [getAllItem, h]
  rfl

theorem Stored.search_here (h : Stored hash pre db loc val ch) (hq : q <+: loc) (fuel : ℕ) :
    getAllItem pre db (location q) (fuel + 1) (location loc) = storageAssociated pre db fuel (location loc) := by
  rw [getAllItem, h.load]
  simp only [bind_eq_bind, bind_some, commonPrefix_location, lcp_eq_right.mpr hq, ↓reduceIte]

theorem Stored.search_below (h : Stored hash pre db loc val ch) {i : Nibble} (hi : loc ++ [i] <+: q) (fuel : ℕ) :
    getAllItem pre db (location q) (fuel + 1) (location loc) =
      getAllItem pre db (location q) fuel (digest hash (ch i)).sublocation := by
  rw [getAllItem, h.load]
  simp only [bind_eq_bind, bind_some, commonPrefix_location, lcp_eq_left.mpr (prefix_of_branch hi),
    location_ne_of_branch hi, ↓reduceIte, nextBranch_of_branch hi]
  rfl

theorem Stored.search_outside (h : Stored hash pre db loc val ch) (hl : ¬ loc <+: q) (hq : ¬ q <+: loc) (fuel : ℕ) :
    getAllItem pre db (location q) (fuel + 1) (location loc) = some [] := by
  have hne : location (lcp loc q) ≠ location q := fun e => hq (lcp_eq_right.mp (location_inj.mp e))
  have hne' : location (lcp loc q) ≠ location loc := fun e => hl (lcp_eq_left.mp (location_inj.mp e))
  rw [getAllItem, h.load]
  simp only [bind_eq_bind, bind_some, commonPrefix_location, hne, hne', ↓reduceIte]

theorem storageLoad_nil (h : Closed pre db) : storageLoad pre db [] = some none := by
  have hnone : db (location2DBkey pre [] false) = none := by
    by_contra hx
    obtain ⟨l, hl | ⟨-, hl⟩⟩ := h [] hx <;> simp [nodeKey, leafKey, location2DBkey, location] at hl
  rw [storageLoad, hnone]

theorem find_leaf {k : List Nibble} {v : Bytes} (h : (leaf l v : PTree).find k ≠ none) : k = l := by
  by_contra hk
  exact h (find_eq_of_sub (sub_bare hk))

/-- Below a stored node the search lists the entries that start with `q`, unless there is exactly one. -/
theorem getAllItem_spec (hclosed : Closed pre db) (t : PTree) :
    ∀ loc val ch, t = .node loc val ch → Stored hash pre db loc val ch →
      (q <+: loc ∨ ¬ ∃! k, q <+: k ∧ t.find k ≠ none) →
      ∃ r, Lists t.find q r ∧ ∃ N, ∀ fuel, N ≤ fuel → getAllItem pre db (location q) (fuel + 1) (location loc) = some r := by
  induction t with
  | empty => rintro _ _ _ ⟨⟩
  | node loc val ch ih =>
    intro loc' val' ch' e h hq
    cases e
    by_cases hup : q <+: loc
    · obtain ⟨N, hN⟩ := storageAssociated_spec hash pre db (.node loc val ch)
      refine ⟨_, ⟨(node loc val ch).entries, nodup_entries h.wf, fun k v => ?_, rfl⟩, N,
        fun fuel hfuel => (h.search_here hup fuel).trans (hN fuel hfuel loc val ch rfl h)⟩
      rw [mem_entries h.wf]
      exact ⟨fun hk => ⟨hup.trans (h.wf.prefix_of_find (by simp [hk])), hk⟩, And.right⟩
    · replace hq := hq.resolve_left hup
      rcases place_cases loc q with rfl | ⟨i, hi⟩ | ho
      · exact absurd (prefix_refl q) hup
      · have hfind : ∀ k, q <+: k → (node loc val ch).find k = (ch i).find k := fun k hk => find_branch (hi.trans hk)
        have hq' : ¬ ∃! k, q <+: k ∧ (ch i).find k ≠ none := fun hu =>
          hq ((existsUnique_congr fun k => and_congr_right fun hk => by rw [hfind k hk]).mpr hu)
        rcases h.child i with ⟨he, hd⟩ | ⟨l, v, he, hd, hrec, -⟩ | ⟨l, val', ch', he, -, hsub, hs⟩
        · refine ⟨[], lists_nil fun k hk => by rw [hfind k hk, he, find_empty], 1, fun fuel hfuel => ?_⟩
          obtain ⟨fuel, rfl⟩ : ∃ f, fuel = f + 1 := ⟨fuel - 1, by omega⟩
          rw [h.search_below hi, hd]
          exact getAllItem_absent (storageLoad_nil hclosed) fuel
        · -- the leaf is not found, and would be the only entry
          rw [he] at hq' hfind
          refine ⟨[], lists_nil fun k hk => ?_, 1, fun fuel hfuel => ?_⟩
          · by_contra hne
            rw [hfind k hk] at hne
            exact hq' ⟨k, ⟨hk, hne⟩, fun k' hk' => (find_leaf hk'.2).trans (find_leaf hne).symm⟩
          · obtain ⟨fuel, rfl⟩ : ∃ f, fuel = f + 1 := ⟨fuel - 1, by omega⟩
            have hload : storageLoad pre db (location l) = some none := by
              have hkey : db (location2DBkey pre (location l) false) = none := hrec
              rw [storageLoad, hkey]
            rw [h.search_below hi, hd]
            exact getAllItem_absent hload fuel
        · obtain ⟨r, hr, N, hN⟩ := ih i l val' ch' he hs (Or.inr hq')
          refine ⟨r, hr.congr hfind, N + 1, fun fuel hfuel => ?_⟩
          obtain ⟨fuel, rfl⟩ : ∃ f, fuel = f + 1 := ⟨fuel - 1, by omega⟩
          rw [h.search_below hi, hsub]
          exact hN fuel (by omega)
      · refine ⟨[], lists_nil fun k hk => find_outside fun hl => ?_, 0, fun fuel _ => h.search_outside ho hup fuel⟩
        rcases prefix_or_prefix_of_prefix hl hk with hlq | hql
        · exact ho hlq
        · exact hup hql

theorem getAllItem_alone (t : PTree) :
    ∀ loc val ch, t = .node loc val ch → Stored hash pre db loc val ch → ¬ q <+: loc →
      (∃! k, q <+: k ∧ t.find k ≠ none) →
      ∃ N, ∀ fuel, N ≤ fuel → getAllItem pre db (location q) (fuel + 1) (location loc) = some [] := by
  induction t with
  | empty => rintro _ _ _ ⟨⟩
  | node loc val ch ih =>
    intro loc' val' ch' e h hup halone
    cases e
    rcases place_cases loc q with rfl | ⟨i, hi⟩ | ho
    · exact absurd (prefix_refl q) hup
    · have halone' : ∃! k, q <+: k ∧ (ch i).find k ≠ none :=
        (existsUnique_congr fun k => and_congr_right fun hk => by rw [find_branch (hi.trans hk)]).mp halone
      have hc := h.canonical i
      have hw := h.wf.2 i
      rcases h.child i with ⟨he, hd⟩ | ⟨l, v, he, hd, hrec, -⟩ | ⟨l, val', ch', he, htype, hsub, hs⟩
      · obtain ⟨k, ⟨-, hk⟩, -⟩ := halone'
        rw [he] at hk
        exact absurd rfl hk
      · refine ⟨1, fun fuel hfuel => ?_⟩
        obtain ⟨fuel, rfl⟩ : ∃ f, fuel = f + 1 := ⟨fuel - 1, by omega⟩
        have hload : storageLoad pre db (location l) = some none := by
          have hkey : db (location2DBkey pre (location l) false) = none := hrec
          rw [storageLoad, hkey]
        rw [h.search_below hi, hd]
        exact getAllItem_absent hload fuel
      · rw [he] at halone' hc hw htype
        have hreach : ¬ q <+: l := by
          intro hql
          -- an inner node has two keys below it
          have hinner : val' = none ∨ ∃ j, (ch' j).isNode = true := by
            by_contra hleaf
            rw [not_or, not_exists] at hleaf
            obtain ⟨v, rfl⟩ := ne_none_iff_exists'.mp hleaf.1
            obtain rfl : ch' = fun _ => .empty :=
              funext fun j => isNode_eq_false.mp (Bool.eq_false_iff.mpr (hleaf.2 j))
            rcases digest_canonical hash hc with ⟨_, -, -, hd⟩ | ⟨-, hrec⟩
            · rw [hd] at htype
              cases htype
            · rw [record_leaf (by rintro rfl; simpa using hw.1)] at hrec
              cases hrec
          obtain ⟨k, k', hne, hk, hk'⟩ := exists_two_of_canonical hc hw hinner
          exact hne (halone'.unique ⟨hql.trans (hs.wf.prefix_of_find hk), hk⟩
            ⟨hql.trans (hs.wf.prefix_of_find hk'), hk'⟩)
        obtain ⟨N, hN⟩ := ih i l val' ch' he hs hreach (by rwa [he])
        refine ⟨N + 1, fun fuel hfuel => ?_⟩
        obtain ⟨fuel, rfl⟩ : ∃ f, fuel = f + 1 := ⟨fuel - 1, by omega⟩
        rw [h.search_below hi, hsub]
        exact hN fuel (by omega)
    · exact ⟨0, fun fuel _ => h.search_outside ho hup fuel⟩

/-! ### After a run -/

theorem length_even_of_pathMap (h : pathMap m l ≠ none) : l.length % 2 = 0 := by
  by_contra he
  exact h (if_neg he)

theorem stored_root (hs : Synced hash pre db (.node [] val ch)) (hw : (node [] val ch).WF [])
    (hroot : db (nodeKey pre []) = record hash (.node [] val ch))
    (hfind : ∀ l, (node [] val ch).find l = pathMap m l) :
    Stored hash pre db [] val fun i => (ch i).compress := by
  have hcw : (node [] val fun i => (ch i).compress).WF [] := WF.compressBelow hw
  have hcs : Synced hash pre db (.node [] val fun i => (ch i).compress) := hs.of_find hw hcw (find_compressBelow hw)
  have htop : topInfo hash (.node [] val fun i => (ch i).compress) = topInfo hash (.node [] val ch) :=
    topInfo_compressBelow (.node [] val ch)
  refine ⟨hcw, fun i => canonical_compress _, hcs.holds hcw, ?_, fun he => ?_, fun k hk => ?_⟩
  · rw [hroot, htop, record, if_neg (by simp)]
  · rw [hs.leaf [] he, find_self]
  · have hk' : (node [] val ch).find k ≠ none := by rwa [← find_compressBelow hw]
    rw [hfind] at hk'
    exact length_even_of_pathMap hk'

theorem Lists.keys {p : Bytes} {r : List Bytes} (h : Lists (pathMap m) (nibbles p) r) :
    ∃ es : List (Bytes × Bytes), (es.map Prod.fst).Nodup ∧ (∀ k v, (k, v) ∈ es ↔ p <+: k ∧ m k = some v) ∧
      r = es.map Prod.snd := by
  obtain ⟨es, hnodup, hmem, rfl⟩ := h
  have heven : ∀ e ∈ es, e.1.length % 2 = 0 := fun e he =>
    length_even_of_pathMap (m := m) (by simp [((hmem e.1 e.2).mp he).2])
  refine ⟨es.map fun e => (pack e.1, e.2), ?_, fun k v => ?_, by simp⟩
  · rw [List.map_map, show Prod.fst ∘ (fun e : List Nibble × Bytes => (pack e.1, e.2)) = pack ∘ Prod.fst from rfl,
      ← List.map_map]
    refine hnodup.map_on fun a ha b hb hab => ?_
    obtain ⟨e, he, rfl⟩ := List.mem_map.mp ha
    obtain ⟨e', he', rfl⟩ := List.mem_map.mp hb
    exact pack_inj ((heven e he).trans (heven e' he').symm) hab
  · rw [← nibbles_initial, ← pathMap_nibbles m k, ← hmem]
    constructor
    · intro hk
      obtain ⟨e, he, hek⟩ := List.mem_map.mp hk
      cases hek
      rwa [nibbles_pack (heven e he)]
    · intro hk
      exact List.mem_map.mpr ⟨_, hk, by rw [pack_nibbles]⟩

/-- After `UpdateHash` and the write of the batch, `GetAll` of a prefix returns the values of the keys that start with
    it, each once, just when the prefix is empty or not exactly one key starts with it. -/
theorem trie_get_all (hashCrypto : Bytes → Bytes) (keyPrefix : Bytes) (d : Db)
    (h : ∀ x, d (keyPrefix ++ x) = none) (depth : ℤ) (ops : List TrieOp) (ha : admissible {} ops = true) (p : Bytes) :
    ∃ s, runTrie hashCrypto keyPrefix d depth (ops ++ [.updateHash, .addToDB]) = some s ∧
      ((∃ es : List (Bytes × Bytes), (es.map Prod.fst).Nodup ∧
          (∀ k v, (k, v) ∈ es ↔ p <+: k ∧ finalMap ops k = some v) ∧
          ∃ N, ∀ fuel, N ≤ fuel → getAll keyPrefix s.db fuel p = some (es.map Prod.snd)) ↔
        p = [] ∨ ¬ ∃! k, p <+: k ∧ finalMap ops k ≠ none) := by
  obtain ⟨s, _, frm, children, val, ch, hrun, hinv, -, -, hsync, hroot⟩ := run_final hashCrypto h depth ha
  refine ⟨s, hrun, ?_⟩
  have hfind : (node [] val fun i => (ch i).compress).find = pathMap (finalMap ops) :=
    funext fun l => (find_compressBelow hinv.wf l).trans (hinv.find l)
  have hstored := stored_root hsync hinv.wf hroot hinv.find
  have hunique : (∃! l, nibbles p <+: l ∧ pathMap (finalMap ops) l ≠ none) ↔
      ∃! k, p <+: k ∧ finalMap ops k ≠ none := by
    constructor
    · rintro ⟨l, ⟨hpl, hl⟩, huniq⟩
      obtain ⟨k, rfl⟩ : ∃ k, l = nibbles k := ⟨pack l, (nibbles_pack (length_even_of_pathMap hl)).symm⟩
      rw [pathMap_nibbles] at hl
      refine ⟨k, ⟨nibbles_initial.mp hpl, hl⟩, fun k' hk' => ?_⟩
      have e := huniq (nibbles k') ⟨nibbles_initial.mpr hk'.1, by rw [pathMap_nibbles]; exact hk'.2⟩
      rw [← pack_nibbles k', e, pack_nibbles]
    · rintro ⟨k, ⟨hpk, hk⟩, huniq⟩
      refine ⟨nibbles k, ⟨nibbles_initial.mpr hpk, by rwa [pathMap_nibbles]⟩, fun l ⟨hpl, hl⟩ => ?_⟩
      obtain ⟨k', rfl⟩ : ∃ k, l = nibbles k := ⟨pack l, (nibbles_pack (length_even_of_pathMap hl)).symm⟩
      rw [pathMap_nibbles] at hl
      rw [huniq k' ⟨nibbles_initial.mp hpl, hl⟩]
  have hget (fuel : ℕ) : getAll keyPrefix s.db (fuel + 1) p =
      getAllItem keyPrefix s.db (location (nibbles p)) (fuel + 1) (location []) := by
    rw [getAll, ← location_nibbles p]
    rfl
  constructor
  · rintro ⟨es, -, hmem, N, hN⟩
    by_contra hnot
    push Not at hnot
    obtain ⟨hne, halone⟩ := hnot
    have hup : ¬ nibbles p <+: [] := by
      rw [show ([] : List (Fin 16)) = nibbles [] from rfl, nibbles_initial, prefix_nil]
      exact hne
    obtain ⟨N', hN'⟩ := getAllItem_alone _ _ _ _ rfl hstored hup (by rw [hfind]; exact hunique.mpr halone)
    have hresult := (hget (max N N')).symm.trans (hN _ (by omega))
    rw [hN' _ (by omega)] at hresult
    obtain rfl : es = [] := by simpa using (some.inj hresult).symm
    obtain ⟨k, ⟨hpk, hk⟩, -⟩ := halone
    obtain ⟨v, hv⟩ := ne_none_iff_exists'.mp hk
    cases (hmem k v).mpr ⟨hpk, hv⟩
  · intro hp
    have hq : nibbles p <+: [] ∨ ¬ ∃! l, nibbles p <+: l ∧ pathMap (finalMap ops) l ≠ none :=
      hp.imp (fun e => by rw [e]; exact nil_prefix) fun hnot => mt hunique.mp hnot
    rw [← hfind] at hq
    obtain ⟨r, hr, N, hN⟩ := getAllItem_spec hinv.closed.1 _ _ _ _ rfl hstored hq
    rw [hfind] at hr
    obtain ⟨es, hnodup, hmem, rfl⟩ := hr.keys
    refine ⟨es, hnodup, hmem, N + 1, fun fuel hfuel => ?_⟩
    obtain ⟨fuel, rfl⟩ : ∃ f, fuel = f + 1 := ⟨fuel - 1, by omega⟩
    rw [hget]
    exact hN fuel (by omega)

theorem trie_get_all_three_keys :
    ∃ s, runTrie (List.take 4) [7] (fun _ => none) 0 (directOps ++ [.updateHash, .addToDB]) = some s ∧
      ∃ es : List (Bytes × Bytes), (es.map Prod.fst).Nodup ∧
        (∀ k v, (k, v) ∈ es ↔ [0x12] <+: k ∧ finalMap directOps k = some v) ∧
        ∃ N, ∀ fuel, N ≤ fuel → getAll [7] s.db fuel [0x12] = some (es.map Prod.snd) := by
  obtain ⟨s, hrun, hall⟩ := trie_get_all (List.take 4) [7] (fun _ => none) (fun _ => rfl) 0 directOps (by decide) [0x12]
  refine ⟨s, hrun, hall.mpr (Or.inr ?_)⟩
  rintro ⟨k, -, huniq⟩
  have h1 := huniq [0x12] (by decide)
  have h2 := huniq [0x12, 0x34] (by decide)
  rw [← h1] at h2
  cases h2

/-- A key that is alone below a prefix is at a leaf, which has no record, and `GetAll` does not list it. -/
theorem trie_get_all_single_key :
    ∃ s, runTrie (List.take 4) [7] (fun _ => none) 0 [.set [0x61] [1], .updateHash, .addToDB] = some s ∧
      finalMap [.set [0x61] [1]] [0x61] = some [1] ∧ getAll [7] s.db 3 [0x61] = some [] := by
  have hrun : (runTrie (List.take 4) [7] (fun _ => none) 0 [.set [0x61] [1], .updateHash, .addToDB]).any
      (fun s => getAll [7] s.db 3 [0x61] == some []) = true := by decide +kernel
  obtain ⟨s, hs, hall⟩ := (Option.any_eq_true ..).mp hrun
  exact ⟨s, hs, by decide, by simpa using hall⟩

end
end OpenSesame
