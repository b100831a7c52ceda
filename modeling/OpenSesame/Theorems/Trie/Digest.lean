import OpenSesame.Lib.PatriciaCompress
import OpenSesame.Ledger.Trie

/-! # The entry and the record of a tree of nibble locations

`digest` is the entry a hashed subtree has in its parent and `record` the stored form of its top
node, both as functions of the whole tree, superfluous nodes included. -/

namespace OpenSesame
open Patricia RadixTree List

abbrev PTree := RadixTree 16 Bytes

section
variable (hashCrypto : Bytes → Bytes)

def leafChild (loc : List Nibble) : Option Bytes → Child
  | none => {}
  | some v => ⟨location loc, hashCrypto v, .leaf⟩

def infoOf (loc : List Nibble) (val : Option Bytes) (entries : Nibble → Child) : Node :=
  { branch := entries, own := leafChild hashCrypto loc val }

def entryOf (loc : List Nibble) (info : Node) : Child :=
  if info.branchCount = 0 then {}
  else if info.branchCount = 1 then info.onlyBranch
  else ⟨location loc, hashCrypto info.serialize, .inner⟩

def digest : PTree → Child
  | .empty => {}
  | .node loc val ch => entryOf hashCrypto loc (infoOf hashCrypto loc val fun i => digest (ch i))

def topInfo : PTree → Node
  | .empty => {}
  | .node loc val ch => infoOf hashCrypto loc val fun i => digest hashCrypto (ch i)

def record : PTree → Option Bytes
  | .empty => none
  | .node loc val ch =>
    let info := topInfo hashCrypto (.node loc val ch)
    if loc ≠ [] ∧ info.branchCount ≤ 1 then none else some info.serialize

variable {hashCrypto} {p loc l : List Nibble} {val : Option Bytes} {ch : Nibble → PTree} {t : PTree}

theorem topInfo_node :
    topInfo hashCrypto (.node loc val ch) = infoOf hashCrypto loc val fun i => digest hashCrypto (ch i) := rfl

theorem digest_node : digest hashCrypto (.node loc val ch) =
    entryOf hashCrypto loc (topInfo hashCrypto (.node loc val ch)) := rfl

theorem record_congr {val' : Option Bytes} {ch' : Nibble → PTree}
    (h : topInfo hashCrypto (.node loc val ch) = topInfo hashCrypto (.node loc val' ch')) :
    record hashCrypto (.node loc val ch) = record hashCrypto (.node loc val' ch') := by
  simp only [record, h]

@[simp] theorem leafChild_type : (leafChild hashCrypto loc val).childtype = .none ↔ val = none := by
  cases val <;> simp [leafChild]

theorem branchCount_infoOf (entries : Nibble → Child) : (infoOf hashCrypto loc val entries).branchCount =
    (if val = none then 0 else 1) + (infoOf hashCrypto loc val entries).live.length := by
  simp [Node.branchCount, infoOf]

variable {info : Node}

theorem entryOf_type (h : info.branchCount ≠ 0) : (entryOf hashCrypto loc info).childtype ≠ .none := by
  unfold entryOf
  rw [if_neg h]
  split
  · rename_i h1
    unfold Node.onlyBranch
    split
    · rename_i i hi
      have hmem : i ∈ info.live := mem_of_getLast? hi
      simpa [Node.live] using hmem
    · rename_i hnil
      simp only [getLast?_eq_none_iff] at hnil
      unfold Node.branchCount at h
      intro hown
      simp [hnil, hown] at h
  · simp

theorem mem_live {i : Nibble} : i ∈ info.live ↔ (info.branch i).childtype ≠ .none := by
  simp [Node.live]

theorem two_le_live : 2 ≤ info.live.length ↔ ∃ i j, i ≠ j ∧ i ∈ info.live ∧ j ∈ info.live := by
  have hnodup : info.live.Nodup := (nodup_finRange 16).filter _
  rcases hl : info.live with _ | ⟨a, _ | ⟨b, r⟩⟩
  · simp
  · simp only [length_singleton, mem_singleton]
    exact ⟨fun h => by omega, fun ⟨i, j, hij, hi, hj⟩ => absurd (hi.trans hj.symm) hij⟩
  · rw [hl] at hnodup
    simp only [nodup_cons, mem_cons, not_or] at hnodup
    exact ⟨fun _ => ⟨a, b, hnodup.1.1, by simp, by simp⟩, fun _ => by simp⟩

/-! ### Compression -/

theorem branchCount_prune (hashCrypto : Bytes → Bytes) (loc : List Nibble) (val : Option Bytes) {entries : Nibble → Child} {c : Nibble → PTree}
    (h : ∀ i, (entries i).childtype = .none ↔ (c i).isNode = false) :
    (prune loc val c = .empty ∧ (infoOf hashCrypto loc val entries).branchCount = 0) ∨
    (∃ i, prune loc val c = c i ∧ (infoOf hashCrypto loc val entries).branchCount = 1 ∧
      (infoOf hashCrypto loc val entries).onlyBranch = entries i) ∨
    (prune loc val c = .node loc val c ∧ (infoOf hashCrypto loc val entries).branchCount ≠ 0) := by
  have hlive : (infoOf hashCrypto loc val entries).live = (finRange 16).filter fun i => (c i).isNode := by
    refine filter_congr fun i _ => ?_
    cases hn : (c i).isNode
    · simp [infoOf, (h i).mpr hn]
    · have : (entries i).childtype ≠ .none := fun e => by simp [(h i).mp e] at hn
      simp [infoOf, this]
  rw [branchCount_infoOf, hlive]
  cases val with
  | some v => exact Or.inr (Or.inr ⟨rfl, by simp⟩)
  | none =>
    rcases hl : (finRange 16).filter (fun i => (c i).isNode) with _ | ⟨i, _ | ⟨j, r⟩⟩
    · exact Or.inl ⟨by simp [prune, hl], by simp⟩
    · refine Or.inr (Or.inl ⟨i, by simp [prune, hl], by simp, ?_⟩)
      rw [Node.onlyBranch, hlive, hl]
      rfl
    · exact Or.inr (Or.inr ⟨by simp [prune, hl], by simp⟩)

theorem digest_type (hashCrypto : Bytes → Bytes) (t : PTree) :
    (digest hashCrypto t).childtype = .none ↔ t.compress.isNode = false := by
  induction t with
  | empty => simp [digest, compress, isNode]
  | node loc val ch ih =>
    rw [digest_node, topInfo_node, compress]
    rcases branchCount_prune hashCrypto loc val ih with ⟨e, h0⟩ | ⟨i, e, h1, ho⟩ | ⟨e, hne⟩ <;> rw [e]
    · simp [entryOf, h0, isNode]
    · simp only [entryOf, h1, ho, Nat.one_ne_zero, ↓reduceIte]
      exact ih i
    · simp [entryOf_type hne, isNode]

theorem compress_node (hashCrypto : Bytes → Bytes) (loc : List Nibble) (val : Option Bytes) (ch : Nibble → PTree) :
    (compress (.node loc val ch) = .empty ∧ (topInfo hashCrypto (.node loc val ch)).branchCount = 0) ∨
    (∃ i, compress (.node loc val ch) = (ch i).compress ∧ (topInfo hashCrypto (.node loc val ch)).branchCount = 1 ∧
      (topInfo hashCrypto (.node loc val ch)).onlyBranch = digest hashCrypto (ch i)) ∨
    (compress (.node loc val ch) = .node loc val (fun i => (ch i).compress) ∧
      (topInfo hashCrypto (.node loc val ch)).branchCount ≠ 0) :=
  branchCount_prune hashCrypto loc val fun i => digest_type hashCrypto (ch i)

@[simp] theorem digest_compress (t : PTree) : digest hashCrypto t.compress = digest hashCrypto t := by
  induction t with
  | empty => rfl
  | node loc val ch ih =>
    rcases compress_node hashCrypto loc val ch with ⟨e, h0⟩ | ⟨i, e, h1, ho⟩ | ⟨e, -⟩ <;> rw [e]
    · rw [digest_node, entryOf, if_pos h0]
      rfl
    · simp only [ih i, digest_node, entryOf, h1, ho, Nat.one_ne_zero, ↓reduceIte]
    · simp only [digest_node, topInfo_node, ih]

theorem record_compress (h : t.WF p) (hl : l ≠ []) :
    record hashCrypto (t.compress.sub l) = record hashCrypto (t.sub l) := by
  rw [sub_compress h]
  cases hu : t.sub l with
  | empty => rfl
  | node loc val ch =>
    obtain rfl : loc = l := loc_of_sub hu
    have hw : (node loc val ch).WF loc := hu ▸ h.sub loc
    rcases compress_node hashCrypto loc val ch with ⟨e, h0⟩ | ⟨i, e, h1, -⟩ | ⟨e, -⟩ <;> rw [e]
    · simp [record, hl, h0]
    · rw [(hw.2 i).compress.sub_outside fun hi => ne_of_branch hi rfl]
      simp [record, hl, h1]
    · rw [sub_self]
      exact record_congr (by simp only [topInfo_node, digest_compress])

/-! ### The root -/

def compressBelow : PTree → PTree
  | .empty => .empty
  | .node loc val ch => .node loc val fun i => (ch i).compress

theorem topInfo_compressBelow (t : PTree) : topInfo hashCrypto (compressBelow t) = topInfo hashCrypto t := by
  cases t with
  | empty => rfl
  | node loc val ch => simp only [compressBelow, topInfo_node, digest_compress]

theorem WF.compressBelow (h : t.WF p) : (compressBelow t).WF p := by
  cases t with
  | empty => trivial
  | node loc val ch => exact ⟨h.1, fun i => (h.2 i).compress⟩

theorem find_compressBelow (h : t.WF p) (l : List Nibble) : (compressBelow t).find l = t.find l := by
  cases t with
  | empty => rfl
  | node loc val ch =>
    rcases place_cases loc l with rfl | ⟨i, hi⟩ | ho
    · simp only [compressBelow, find_self]
    · simp only [compressBelow, find_branch hi, find_compress (h.2 i)]
    · simp only [compressBelow, find_outside ho]

theorem record_compressBelow (h : t.WF p) (l : List Nibble) :
    record hashCrypto ((compressBelow t).sub l) = record hashCrypto (t.sub l) := by
  cases t with
  | empty => rfl
  | node loc val ch =>
    rcases place_cases loc l with rfl | ⟨i, hi⟩ | ho
    · rw [compressBelow, sub_self, sub_self]
      exact record_congr (topInfo_compressBelow (.node l val ch))
    · have hl : l ≠ [] := by
        rintro rfl
        simp at hi
      rw [compressBelow, sub_branch hi, sub_branch hi, record_compress (h.2 i) hl]
    · rw [compressBelow, sub_outside ho, sub_outside ho]

theorem compressBelow_eq_of_find {val' : Option Bytes} {ch' : Nibble → PTree} (h : (node loc val ch).WF p)
    (h' : (node loc val' ch').WF p) (hf : ∀ l, (node loc val ch).find l = (node loc val' ch').find l) :
    compressBelow (.node loc val ch) = compressBelow (.node loc val' ch') := by
  have hval : val = val' := by simpa only [find_self] using hf loc
  have hch : (fun i => (ch i).compress) = fun i => (ch' i).compress := by
    funext i
    refine compress_eq_of_find (h.2 i) (h'.2 i) fun l => ?_
    by_cases hi : loc ++ [i] <+: l
    · simpa only [find_branch hi] using hf l
    · rw [(h.2 i).find_outside hi, (h'.2 i).find_outside hi]
  simp only [compressBelow, hval, hch]

end
end OpenSesame
