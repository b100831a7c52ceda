import OpenSesame.Lib.Patricia

/-! # Compressed Patricia trees are canonical

`compress` keeps the map (`find_compress`), yields a canonical tree (`canonical_compress`), and two canonical
trees of one map are equal (`eq_of_find`). So anything computed from the compressed tree is a function of the
map, whatever the history of insertions and deletions. -/

namespace Patricia
namespace RadixTree
variable {n : ℕ} {V : Type*} {p loc k l : List (Fin n)} {val : Option V} {ch : Fin n → RadixTree n V}
  {s t : RadixTree n V}

/-! ### Pruning one node -/

theorem prune_cases (loc : List (Fin n)) (val : Option V) (ch : Fin n → RadixTree n V) :
    (val = none ∧ (∀ i, ch i = empty) ∧ prune loc val ch = empty) ∨
    (val = none ∧ ∃ i, (ch i).isNode = true ∧ (∀ j, j ≠ i → ch j = empty) ∧ prune loc val ch = ch i) ∨
    ((val = none → ∃ i j, i ≠ j ∧ (ch i).isNode = true ∧ (ch j).isNode = true) ∧
      prune loc val ch = node loc val ch) := by
  cases val with
  | some v => exact Or.inr (Or.inr ⟨nofun, rfl⟩)
  | none =>
    have hmem : ∀ i, i ∈ (List.finRange n).filter (fun i => (ch i).isNode) ↔ (ch i).isNode = true := by simp
    have hnodup : ((List.finRange n).filter fun i => (ch i).isNode).Nodup := (List.nodup_finRange n).filter _
    rcases hlist : (List.finRange n).filter (fun i => (ch i).isNode) with _ | ⟨i, _ | ⟨j, r⟩⟩
    · refine Or.inl ⟨rfl, fun i => ?_, by simp [prune, hlist]⟩
      rw [← isNode_eq_false, Bool.eq_false_iff]
      simp [← hmem, hlist]
    · refine Or.inr (Or.inl ⟨rfl, i, (hmem i).mp (by simp [hlist]), fun j hj => ?_, by simp [prune, hlist]⟩)
      rw [← isNode_eq_false, Bool.eq_false_iff]
      simp [← hmem, hlist, hj]
    · have hij : i ≠ j := by
        rw [hlist] at hnodup
        simp only [List.nodup_cons, List.mem_cons, not_or] at hnodup
        exact hnodup.1.1
      exact Or.inr (Or.inr ⟨fun _ => ⟨i, j, hij, (hmem i).mp (by simp [hlist]), (hmem j).mp (by simp [hlist])⟩,
        by simp [prune, hlist]⟩)

theorem WF.prune (hp : p <+: loc) (h : ∀ i, (ch i).WF (loc ++ [i])) : (prune loc val ch).WF p := by
  rcases prune_cases loc val ch with ⟨-, -, e⟩ | ⟨-, i, -, -, e⟩ | ⟨-, e⟩ <;> rw [e]
  · trivial
  · exact (h i).mono (hp.trans (List.prefix_append loc [i]))
  · exact ⟨hp, h⟩

theorem sub_prune_branch {i : Fin n} (h : ∀ i, (ch i).WF (loc ++ [i])) (hi : loc ++ [i] <+: k) :
    (prune loc val ch).sub k = (ch i).sub k := by
  rcases prune_cases loc val ch with ⟨-, hall, e⟩ | ⟨-, j, -, hall, e⟩ | ⟨-, e⟩ <;> rw [e]
  · rw [hall i]
  · by_cases hij : i = j
    · rw [hij]
    · rw [hall i hij, (h j).sub_outside fun hj => hij (branch_unique hi hj), sub_empty]
  · exact sub_branch hi

theorem find_prune (h : ∀ i, (ch i).WF (loc ++ [i])) : (prune loc val ch).find k = (node loc val ch).find k := by
  rcases place_cases loc k with rfl | ⟨i, hi⟩ | ho
  · rcases prune_cases k val ch with ⟨hv, -, e⟩ | ⟨hv, i, -, -, e⟩ | ⟨-, e⟩
    · rw [e, find_self, hv, find_empty]
    · rw [e, find_self, hv, (h i).find_outside fun hi => ne_of_branch hi rfl]
    · rw [e]
  · rw [find, sub_prune_branch h hi, find_branch hi, find]
  · rw [(WF.prune (List.prefix_refl loc) h).find_outside ho, find_outside ho]

theorem WF.compress (h : t.WF p) : t.compress.WF p := by
  induction t generalizing p with
  | empty => trivial
  | node loc val ch ih => exact WF.prune h.1 fun i => ih i (h.2 i)

theorem find_compress (h : t.WF p) : t.compress.find k = t.find k := by
  induction t generalizing p with
  | empty => rfl
  | node loc val ch ih =>
    rw [RadixTree.compress, find_prune fun i => (h.2 i).compress]
    rcases place_cases loc k with rfl | ⟨i, hi⟩ | ho
    · rw [find_self, find_self]
    · rw [find_branch hi, find_branch hi, ih i (h.2 i)]
    · rw [find_outside ho, find_outside ho]

theorem canonical_compress (t : RadixTree n V) : t.compress.Canonical := by
  induction t with
  | empty => trivial
  | node loc val ch ih =>
    rw [RadixTree.compress]
    rcases prune_cases loc val fun i => (ch i).compress with ⟨-, -, e⟩ | ⟨-, i, -, -, e⟩ | ⟨hb, e⟩ <;> rw [e]
    · trivial
    · exact ih i
    · exact ⟨hb, ih⟩

/-- A location of the compressed tree carries the compressed subtree of that location, if it kept its top. -/
theorem sub_compress (h : t.WF p) : t.compress.sub l = (t.sub l).compress.sub l := by
  induction t generalizing p with
  | empty => rfl
  | node loc val ch ih =>
    rcases place_cases loc l with rfl | ⟨i, hi⟩ | ho
    · rw [sub_self]
    · rw [RadixTree.compress, sub_prune_branch (fun i => (h.2 i).compress) hi, sub_branch hi]
      exact ih i (h.2 i)
    · have hwf : (node loc val ch).compress.WF loc := WF.compress ⟨List.prefix_refl loc, h.2⟩
      rw [hwf.sub_outside ho, sub_outside ho]
      rfl

/-! ### Canonical trees -/

theorem exists_find_of_canonical (hc : t.Canonical) (hw : t.WF p) (ht : t.isNode = true) : ∃ k, t.find k ≠ none := by
  induction t generalizing p with
  | empty => cases ht
  | node loc val ch ih =>
    cases val with
    | some v => exact ⟨loc, by simp [find_self]⟩
    | none =>
      obtain ⟨i, -, -, hi, -⟩ := hc.1 rfl
      obtain ⟨k, hk⟩ := ih i (hc.2 i) (hw.2 i) hi
      exact ⟨k, by rwa [find_branch ((hw.2 i).prefix_of_find hk)]⟩

/-- A canonical node that is no leaf has two keys below it. -/
theorem exists_two_of_canonical (hc : (node loc val ch).Canonical) (hw : (node loc val ch).WF p)
    (hb : val = none ∨ ∃ i, (ch i).isNode = true) :
    ∃ k k', k ≠ k' ∧ (node loc val ch).find k ≠ none ∧ (node loc val ch).find k' ≠ none := by
  have key : ∀ i, (ch i).isNode = true → ∃ k, loc ++ [i] <+: k ∧ (node loc val ch).find k ≠ none := by
    intro i hi
    obtain ⟨k, hk⟩ := exists_find_of_canonical (hc.2 i) (hw.2 i) hi
    have hik := (hw.2 i).prefix_of_find hk
    exact ⟨k, hik, by rwa [find_branch hik]⟩
  cases val with
  | none =>
    obtain ⟨i, j, hij, hi, hj⟩ := hc.1 rfl
    obtain ⟨k, hik, hk⟩ := key i hi
    obtain ⟨k', hjk, hk'⟩ := key j hj
    exact ⟨k, k', fun e => hij (branch_unique hik (e ▸ hjk)), hk, hk'⟩
  | some v =>
    obtain ⟨i, hi⟩ := hb.resolve_left nofun
    obtain ⟨k, hik, hk⟩ := key i hi
    exact ⟨k, loc, ne_of_branch hik, hk, by simp [find_self]⟩

theorem prefix_loc (hc : (node loc val ch).Canonical) (hw : (node loc val ch).WF p) {q : List (Fin n)}
    (hq : ∀ k, (node loc val ch).find k ≠ none → q <+: k) : q <+: loc := by
  cases val with
  | some v => exact hq loc (by simp [find_self])
  | none =>
    obtain ⟨i, j, hij, hi, hj⟩ := hc.1 rfl
    have key : ∀ i, (ch i).isNode = true → ∃ k, loc ++ [i] <+: k ∧ q <+: k := by
      intro i hi
      obtain ⟨k, hk⟩ := exists_find_of_canonical (hc.2 i) (hw.2 i) hi
      have hik := (hw.2 i).prefix_of_find hk
      exact ⟨k, hik, hq k (by rwa [find_branch hik])⟩
    obtain ⟨k, hik, hqk⟩ := key i hi
    obtain ⟨k', hjk, hqk'⟩ := key j hj
    have hnot : ¬ loc ++ [i] <+: q := fun h => hij (branch_unique (h.trans hqk') hjk)
    rcases List.prefix_or_prefix_of_prefix hqk hik with h | h
    · rcases List.prefix_concat_iff.mp h with e | h
      · exact absurd (e ▸ List.prefix_refl _) hnot
      · exact h
    · exact absurd h hnot

theorem eq_of_find (hs : s.WF p) (ht : t.WF p) (cs : s.Canonical) (ct : t.Canonical)
    (h : ∀ k, s.find k = t.find k) : s = t := by
  induction s generalizing t p with
  | empty =>
    cases t with
    | empty => rfl
    | node loc val ch =>
      obtain ⟨k, hk⟩ := exists_find_of_canonical ct ht rfl
      exact absurd (h k).symm hk
  | node loc val ch ih =>
    cases t with
    | empty =>
      obtain ⟨k, hk⟩ := exists_find_of_canonical cs hs rfl
      exact absurd (h k) hk
    | node loc' val' ch' =>
      -- each location is a common initial part of the other's keys
      have into {l l' : List (Fin n)} {v v' : Option V} {c c' : Fin n → RadixTree n V} (hc : (node l v c).Canonical)
          (hw : (node l v c).WF p) (hf : ∀ k, (node l v c).find k = (node l' v' c').find k) : l' <+: l := by
        refine prefix_loc hc hw fun k hk => ?_
        by_contra ho
        exact hk (by rw [hf, find_outside ho])
      have hloc : loc = loc' := (into ct ht fun k => (h k).symm).eq_of_length_le (into cs hs h).length_le
      subst hloc
      have hval : val = val' := by simpa only [find_self] using h loc
      have hch : ch = ch' := by
        funext i
        refine ih i (hs.2 i) (ht.2 i) (cs.2 i) (ct.2 i) fun k => ?_
        by_cases hik : loc ++ [i] <+: k
        · simpa only [find_branch hik] using h k
        · rw [(hs.2 i).find_outside hik, (ht.2 i).find_outside hik]
      rw [hval, hch]

theorem compress_eq_of_find (hs : s.WF p) (ht : t.WF p) (h : ∀ k, s.find k = t.find k) : s.compress = t.compress :=
  eq_of_find hs.compress ht.compress (canonical_compress s) (canonical_compress t) fun k => by
    rw [find_compress hs, find_compress ht, h]

theorem isNode_compress_iff (h : t.WF p) : t.compress.isNode = true ↔ ∃ k, t.find k ≠ none := by
  constructor
  · intro hn
    obtain ⟨k, hk⟩ := exists_find_of_canonical (canonical_compress t) h.compress hn
    exact ⟨k, by rwa [find_compress h] at hk⟩
  · rintro ⟨k, hk⟩
    rw [isNode_iff]
    intro e
    rw [← find_compress h, e] at hk
    exact hk rfl

theorem compress_eq_self (h : t.Canonical) : t.compress = t := by
  induction t with
  | empty => rfl
  | node loc val ch ih =>
    have hch : (fun i => (ch i).compress) = ch := funext fun i => ih i (h.2 i)
    rw [RadixTree.compress, hch]
    rcases prune_cases loc val ch with ⟨hv, hall, -⟩ | ⟨hv, i, -, hall, -⟩ | ⟨-, e⟩
    · obtain ⟨i, -, -, hi, -⟩ := h.1 hv
      simp [hall i, isNode] at hi
    · obtain ⟨j, j', hne, hj, hj'⟩ := h.1 hv
      by_cases hji : j = i
      · simp [hall j' fun e => hne (hji.trans e.symm), isNode] at hj'
      · simp [hall j hji, isNode] at hj
    · exact e

theorem find_sub (hl : (t.sub l).isNode = true) (hk : l <+: k) : (t.sub l).find k = t.find k := by
  induction t with
  | empty => rfl
  | node loc val ch ih =>
    rcases place_cases loc l with rfl | ⟨i, hi⟩ | ho
    · rw [sub_self]
    · rw [sub_branch hi] at hl ⊢
      rw [find_branch (hi.trans hk), ih i hl]
    · rw [sub_outside ho] at hl
      cases hl

/-- Some key of the map begins with `l`. -/
def Below (f : List (Fin n) → Option V) (l : List (Fin n)) : Prop :=
  ∃ k, l <+: k ∧ f k ≠ none

/-- The map has two branches at `l`: two symbols that go on from it, or one and a value at `l`. -/
def Branches (f : List (Fin n) → Option V) (l : List (Fin n)) : Prop :=
  (∃ i j, i ≠ j ∧ Below f (l ++ [i]) ∧ Below f (l ++ [j])) ∨ (f l ≠ none ∧ ∃ i, Below f (l ++ [i]))

theorem isNode_sub_of_branches (hw : t.WF p) (h : Branches t.find l) : (t.sub l).isNode = true := by
  rcases h with ⟨i, j, hij, ⟨k, hik, hk⟩, k', hjk, hk'⟩ | ⟨hl, -⟩
  · induction t generalizing p with
    | empty => exact absurd rfl hk
    | node loc val ch ih =>
      have hloc : loc <+: k := by
        by_contra ho
        exact hk (find_outside ho)
      have hloc' : loc <+: k' := by
        by_contra ho
        exact hk' (find_outside ho)
      rcases place_cases loc l with rfl | ⟨a, ha⟩ | ho
      · rw [sub_self]
        rfl
      · rw [sub_branch ha]
        rw [find_branch (ha.trans (prefix_of_branch hik))] at hk
        rw [find_branch (ha.trans (prefix_of_branch hjk))] at hk'
        exact ih a (hw.2 a) hk hk'
      · -- then `l` ends before the node, and both keys go on with the node's symbol
        have hl : l <+: loc := (List.prefix_or_prefix_of_prefix hloc (prefix_of_branch hik)).resolve_left ho
        cases ha : next l loc with
        | none => exact absurd (next_eq_none ha hl ▸ List.prefix_refl _) ho
        | some a =>
          have ha := next_eq_some.mp ha
          exact absurd ((branch_unique hik (ha.trans hloc)).trans (branch_unique hjk (ha.trans hloc')).symm) hij
  · rw [isNode_iff]
    exact fun e => hl (find_eq_of_sub e)

end RadixTree
end Patricia
