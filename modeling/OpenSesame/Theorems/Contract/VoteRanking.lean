import OpenSesame.Lib.Ranking
import OpenSesame.Theorems.Contract.VoteSolvency

/-! # The ranking of `validators_vote.js`

As long as no payee has code and no address is given with a NUL, the candidates stay in order, an address is never
candidate and applicant at once, and the validators are the first candidates. -/

namespace OpenSesame
open Protocol ScriptUtils Ranking

namespace ValidatorsVote

/-- More coins, or as many and the smaller address. -/
def Ahead (a b : Candidate) : Prop := b.2 < a.2 ∨ a.2 = b.2 ∧ a.1 < b.1

theorem ahead_iff {a b : Candidate} : Ahead a b ↔ b.2.toInt < a.2.toInt ∨ a.2.toInt = b.2.toInt ∧ a.1 < b.1 := by
  rw [Ahead, Int64.lt_iff_toInt_lt, Int64.toInt_inj]

theorem Ahead.trans {a b c : Candidate} (h : Ahead a b) (h' : Ahead b c) : Ahead a c := by
  rw [ahead_iff] at h h' ⊢
  rcases h with h | ⟨h, hs⟩ <;> rcases h' with h' | ⟨h', hs'⟩
  · exact .inl (h'.trans h)
  · exact .inl (h' ▸ h)
  · exact .inl (h ▸ h')
  · exact .inr ⟨h.trans h', hs.trans hs'⟩

theorem Ahead.asymm {a b : Candidate} (h : Ahead a b) : ¬ Ahead b a := by
  rw [ahead_iff] at h ⊢
  rcases h with h | ⟨h, hs⟩ <;> rintro (h' | ⟨h', hs'⟩)
  · exact lt_asymm h h'
  · exact h.ne h'
  · exact h'.ne h
  · exact lt_asymm hs hs'

variable {a : Address}

theorem findI0_none {l : List Candidate} (h : findI0 l a = none) : ∀ c ∈ l, c.1 ≠ a := by
  intro c hc hca
  have hfalse := List.findIdx?_eq_none_iff.mp h c hc
  rw [hca, BEq.rfl] at hfalse
  cases hfalse

variable {i : ℕ}

theorem findI0_some {l : List Candidate} {c : Candidate} (h : findI0 l a = some i) (hc : l[i]? = some c) : c.1 = a := by
  obtain ⟨hi, htrue, -⟩ := List.findIdx?_eq_some_iff_getElem.mp h
  obtain ⟨_, rfl⟩ := List.getElem?_eq_some_iff.mp hc
  exact beq_iff_eq.mp htrue

variable {x : Int64}

theorem findI0_append {C D : List Candidate} (hC : ∀ c ∈ C, c.1 ≠ a)
    (h : findI0 (C ++ (a, x) :: D) a = some i) : i = C.length := by
  have hnone : C.findIdx? (fun c => c.1 == a) = none :=
    List.findIdx?_eq_none_iff.mpr fun c hc => beq_eq_false_iff_ne.mpr (hC c hc)
  rw [findI0, List.findIdx?_append, hnone, List.findIdx?_cons, BEq.rfl] at h
  simp only [Option.none_or, if_true, Option.map_some, Nat.zero_add, Option.some.injEq] at h
  exact h.symm

/-! ### Insertion -/

variable {l l' : List Candidate}

theorem insert_split (hl : l.Pairwise Ahead) (ha : ∀ c ∈ l, c.1 ≠ a) (h : insertCandidatesSorted a x l = some l') :
    ∃ C D, l = C ++ D ∧ l' = C ++ (a, x) :: D ∧ l'.Pairwise Ahead := by
  unfold insertCandidatesSorted at h
  split at h
  · cases h
  dsimp only at h
  obtain ⟨C, D, rfl, hlen, hC, hD⟩ := exists_split_findIdx (fun c : Candidate => decide (x ≥ c.2)) l
  -- the entries above have more
  have hmore : ∀ c ∈ C, Ahead c (a, x) := by
    intro c hc
    have hlt := of_decide_eq_false (hC c hc)
    rw [ge_iff_le, Int64.le_iff_toInt_le, not_le] at hlt
    exact ahead_iff.mpr (.inl hlt)
  rw [← hlen, List.getElem?_append_right (Nat.le_refl _), Nat.sub_self] at h
  rcases D with - | ⟨d, D⟩
  · cases h
    refine ⟨C, [], rfl, by rw [List.append_nil], ?_⟩
    rw [List.append_nil] at hl ⊢
    exact List.pairwise_append.mpr ⟨hl, List.pairwise_singleton .., fun c hc e he => by
      rw [List.mem_singleton] at he
      rw [he]
      exact hmore c hc⟩
  have hle : d.2.toInt ≤ x.toInt := Int64.le_iff_toInt_le.mp (of_decide_eq_true (hD d rfl))
  rw [List.getElem?_cons_zero] at h
  dsimp only at h
  split at h
  · rename_i htie
    rw [List.drop_left] at h
    obtain ⟨C', D', hsplit, hlen', hC', hD'⟩ :=
      exists_split_findIdx (fun c : Candidate => decide (a ≤ c.1 ∨ x > c.2)) (d :: D)
    rw [← hlen', hsplit, ← List.append_assoc, ← List.length_append, insertIdx_length] at h
    cases h
    rw [hsplit, ← List.append_assoc] at hl ha ⊢
    -- none of the entries from the tie on has more
    have hbelow : ∀ e ∈ C' ++ D', e.2.toInt ≤ x.toInt := by
      intro e he
      rw [← hsplit] at he
      rcases List.mem_cons.mp he with rfl | he
      · exact hle
      · have hpair := (List.pairwise_append.mp (by rwa [List.append_assoc, ← hsplit] at hl)).2.1
        rcases ahead_iff.mp (List.rel_of_pairwise_cons hpair he) with hlt | ⟨heq, -⟩
        · exact hlt.le.trans hle
        · exact heq.symm.le.trans hle
    refine ⟨C ++ C', D', rfl, rfl, pairwise_insert (fun _ _ _ => Ahead.trans) hl ?_ ?_⟩
    · intro c hc
      rcases List.mem_append.mp hc with hc | hc
      · exact hmore c hc
      · have hno := of_decide_eq_false (hC' c hc)
        rw [not_or, not_le, gt_iff_lt, Int64.lt_iff_toInt_lt, not_lt] at hno
        exact ahead_iff.mpr (.inr ⟨le_antisymm (hbelow c (List.mem_append_left _ hc)) hno.2, hno.1⟩)
    · intro e he
      have hmem : e ∈ D' := List.mem_of_mem_head? he
      have hyes := of_decide_eq_true (hD' e he)
      rw [gt_iff_lt, Int64.lt_iff_toInt_lt] at hyes
      rw [ahead_iff]
      rcases lt_or_eq_of_le (hbelow e (List.mem_append_right _ hmem)) with hlt | heq
      · exact .inl hlt
      · refine .inr ⟨heq.symm, lt_of_le_of_ne (hyes.resolve_right (by omega)) ?_⟩
        exact (ha e (List.mem_append_right _ hmem)).symm
  · rename_i hne
    rw [insertIdx_length] at h
    cases h
    refine ⟨C, d :: D, rfl, rfl, pairwise_insert (fun _ _ _ => Ahead.trans) hl hmore ?_⟩
    intro e he
    rw [List.head?_cons, Option.mem_some] at he
    subst he
    exact ahead_iff.mpr (.inl (lt_of_le_of_ne hle fun heq => hne (Int64.toInt_inj.mp heq.symm)))

theorem minSuperadditionAmount_pos : 0 < minSuperadditionAmount.toInt := by decide

theorem insert_moved {A B l : List Candidate} {c : Candidate} (horder : (A ++ c :: B).Pairwise Ahead)
    (hdistinct : ((A ++ c :: B).map Prod.fst).Nodup) (hmore : c.2.toInt < x.toInt)
    (h : insertCandidatesSorted c.1 x (A ++ B) = some l) :
    ∃ C D, (∀ e ∈ A ++ B, e.1 ≠ c.1) ∧ A ++ B = C ++ D ∧ l = C ++ (c.1, x) :: D ∧ l.Pairwise Ahead ∧
      C.length ≤ A.length := by
  have hother : ∀ e ∈ A ++ B, e.1 ≠ c.1 := by
    intro e he heq
    rw [List.map_append, List.map_cons, List.nodup_middle, List.nodup_cons, ← List.map_append] at hdistinct
    exact hdistinct.1 (List.mem_map.mpr ⟨e, he, heq⟩)
  have hrest : (A ++ B).Pairwise Ahead := horder.sublist ((List.sublist_cons_self c B).append_left A)
  obtain ⟨C, D, hCD, rfl, hnew⟩ := insert_split hrest hother h
  have hahead : Ahead (c.1, x) c := by
    rw [ahead_iff]
    exact .inl hmore
  have hle : C.length ≤ A.length :=
    length_le_of_ahead (r := Ahead) (fun _ _ => Ahead.asymm) (fun _ _ _ => Ahead.trans) horder hnew hCD hahead
  exact ⟨C, D, hother, hCD, rfl, hnew, hle⟩

/-! ### Sharing out -/

def Raised (b : ℕ → ℤ) (l l' : List Candidate) : Prop :=
  l'.length = l.length ∧ ∀ i c, l[i]? = some c → ∃ c', l'[i]? = some c' ∧ c'.1 = c.1 ∧ c'.2.toInt = c.2.toInt + b i

theorem Raised.refl (l : List Candidate) : Raised 0 l l := ⟨rfl, fun _ c hc => ⟨c, hc, rfl, (add_zero _).symm⟩⟩

theorem Raised.trans {b b' : ℕ → ℤ} {l l' l'' : List Candidate} (h : Raised b l l') (h' : Raised b' l' l'') :
    Raised (b + b') l l'' := by
  refine ⟨h'.1.trans h.1, fun i c hc => ?_⟩
  obtain ⟨c', hc', hname, hamount⟩ := h.2 i c hc
  obtain ⟨c'', hc'', hname', hamount'⟩ := h'.2 i c' hc'
  refine ⟨c'', hc'', hname'.trans hname, ?_⟩
  rw [hamount', hamount, Pi.add_apply, add_assoc]

theorem raised_addAt (h : addAt l i x = some l') : Raised (fun j => if j = i then x.toInt else 0) l l' := by
  obtain ⟨c, hc, h⟩ := Option.bind_eq_some_iff.mp h
  obtain ⟨sum, hsum, h⟩ := Option.bind_eq_some_iff.mp h
  cases h
  obtain ⟨hi, -⟩ := List.getElem?_eq_some_iff.mp hc
  refine ⟨List.length_set, fun j d hd => ?_⟩
  by_cases hij : j = i
  · subst hij
    obtain rfl := Option.some.inj (hc.symm.trans hd)
    exact ⟨_, List.getElem?_set_self hi, rfl, by simp only [if_true, int64Add_toInt hsum]⟩
  · exact ⟨d, by rw [List.getElem?_set_ne (Ne.symm hij), hd], rfl, by simp only [hij, if_false, add_zero]⟩

theorem raised_addAll : ∀ {n : ℕ} {l l' : List Candidate},
    (List.range n).foldlM (fun l i => addAt l i x) l = some l' → Raised (fun j => if j < n then x.toInt else 0) l l'
  | 0, l, l', h => by
    cases h
    have hzero : (fun j => if j < 0 then x.toInt else 0) = (0 : ℕ → ℤ) := by
      funext j
      exact if_neg (Nat.not_lt_zero j)
    rw [hzero]
    exact .refl l
  | n + 1, l, l', h => by
    rw [List.range_succ, List.foldlM_append] at h
    obtain ⟨u, hu, h⟩ := Option.bind_eq_some_iff.mp h
    rw [List.foldlM_cons] at h
    obtain ⟨v, hv, h⟩ := Option.bind_eq_some_iff.mp h
    cases h
    have hsum : (fun j => if j < n + 1 then x.toInt else 0) =
        (fun j => if j < n then x.toInt else 0) + fun j => if j = n then x.toInt else 0 := by
      funext j
      rw [Pi.add_apply]
      rcases lt_trichotomy j n with hj | hj | hj
      · rw [if_pos (by omega), if_pos hj, if_neg hj.ne, add_zero]
      · rw [if_pos (by omega), if_neg (by omega), if_pos hj, zero_add]
      · rw [if_neg (by omega), if_neg (by omega), if_neg hj.ne', add_zero]
    rw [hsum]
    exact (raised_addAll hu).trans (raised_addAt hv)

theorem Raised.order {b : ℕ → ℤ} (hb : ∀ i j, i < j → b j ≤ b i) (h : Raised b l l')
    (hl : l.Pairwise Ahead) : l'.Pairwise Ahead := by
  rw [List.pairwise_iff_getElem] at hl ⊢
  intro i j hi hj hij
  obtain ⟨c, hc, hname, hamount⟩ := h.2 i _ (List.getElem?_eq_getElem (h.1 ▸ hi))
  obtain ⟨d, hd, hname', hamount'⟩ := h.2 j _ (List.getElem?_eq_getElem (h.1 ▸ hj))
  obtain ⟨_, rfl⟩ := List.getElem?_eq_some_iff.mp hc
  obtain ⟨_, rfl⟩ := List.getElem?_eq_some_iff.mp hd
  have hbij := hb i j hij
  rw [ahead_iff, hname, hname', hamount, hamount']
  rcases ahead_iff.mp (hl i j (h.1 ▸ hi) (h.1 ▸ hj) hij) with hlt | ⟨heq, hs⟩
  · exact .inl (by omega)
  · rcases lt_or_eq_of_le hbij with hlt | hsame
    · exact .inl (by omega)
    · exact .inr ⟨by omega, hs⟩

theorem Raised.names {b : ℕ → ℤ} (h : Raised b l l') : l'.map Prod.fst = l.map Prod.fst := by
  refine List.ext_getElem? fun i => ?_
  rw [List.getElem?_map, List.getElem?_map]
  rcases hc : l[i]? with - | c
  · have hnone : l'[i]? = none := by
      rw [List.getElem?_eq_none_iff, h.1]
      exact List.getElem?_eq_none_iff.mp hc
    rw [hnone]
  · obtain ⟨c', hc', hname, -⟩ := h.2 i c hc
    rw [hc', Option.map_some, Option.map_some, hname]

theorem raised_spreadForfeit {left : ℕ} (h : spreadForfeit x left l = some l') :
    ∃ b : ℕ → ℤ, (∀ i j, i < j → b j ≤ b i) ∧ Raised b l l' := by
  unfold spreadForfeit at h
  obtain ⟨count, hcount, h⟩ := Option.bind_eq_some_iff.mp h
  obtain ⟨award, haward, h⟩ := Option.bind_eq_some_iff.mp h
  obtain ⟨average, haverage, h⟩ := Option.bind_eq_some_iff.mp h
  obtain ⟨u, hu, h⟩ := Option.bind_eq_some_iff.mp h
  obtain ⟨hx, hpos, hquot⟩ := int64Div_toInt haverage
  have haverage0 : 0 ≤ average.toInt := hquot ▸ Int.ediv_nonneg hx hpos.le
  have haward0 : 0 ≤ award.toInt := int64Mod_toInt haward ▸ Int.emod_nonneg _ hpos.ne'
  have hfirst : Raised (fun j => if j = 0 then award.toInt else 0) l u := by
    unfold payAward at hu
    split at hu
    · rename_i hzero
      cases hu
      have hnothing : (fun j => if j = 0 then award.toInt else 0) = (0 : ℕ → ℤ) := by
        funext j
        rw [hzero, Int64.toInt_zero, ite_self]
        rfl
      rw [hnothing]
      exact .refl l
    · exact raised_addAt hu
  refine ⟨_, fun i j hij => ?_, hfirst.trans (raised_addAll h)⟩
  simp only [Pi.add_apply]
  refine add_le_add ?_ ?_
  · rw [if_neg (by omega)]
    split <;> omega
  · split
    · rw [if_pos (by omega)]
    · split <;> omega

/-! ### The invariant -/

structure Ranked (s : ValidatorsVote) : Prop where
  order : s.candidates.Pairwise Ahead
  distinct : (s.candidates.map Prod.fst).Nodup
  /-- A candidate is no applicant. -/
  apart : ∀ c ∈ s.candidates, s.applicants.lookup c.1 = none
  top : s.validators = s.candidates.take validatorSetSize

theorem Ranked.of_eq {s t : ValidatorsVote} (h : Ranked s) (ha : t.applicants = s.applicants)
    (hc : t.candidates = s.candidates) (hv : t.validators = s.validators) : Ranked t where
  order := hc ▸ h.order
  distinct := hc ▸ h.distinct
  apart := by rw [ha, hc]; exact h.apart
  top := by rw [hv, hc]; exact h.top

variable {s : ValidatorsVote}

theorem Ranked.paid (h : Ranked s) (balance : Int64) : Ranked { s with balance := balance } := h.of_eq rfl rfl rfl

theorem Ranked.store {l : List Candidate} (order : l.Pairwise Ahead)
    (distinct : (l.map Prod.fst).Nodup) (apart : ∀ c ∈ l, s.applicants.lookup c.1 = none)
    (top : validatorSetSize ≤ i → s.validators = l.take validatorSetSize) : Ranked (storeCandidates l i s) := by
  unfold storeCandidates
  dsimp only
  split
  · exact ⟨order, distinct, apart, rfl⟩
  · exact ⟨order, distinct, apart, top (Nat.le_of_not_lt ‹_›)⟩

theorem Ranked.putApplicant {r : Applicant} (h : Ranked s)
    (ha : ∀ c ∈ s.candidates, c.1 ≠ toCString a) : Ranked (putApplicant a r s) where
  order := h.order
  distinct := h.distinct
  apart c hc := (AList.lookup_insert_ne (ha c hc)).trans (h.apart c hc)
  top := h.top

theorem Ranked.eraseApplicant (h : Ranked s) (a : Address) : Ranked { s with applicants := s.applicants.erase a } := by
  refine ⟨h.order, h.distinct, fun c hc => ?_, h.top⟩
  by_cases hca : c.1 = a
  · rw [hca]
    exact AList.lookup_erase ..
  · exact (AList.lookup_erase_ne hca).trans (h.apart c hc)

theorem Ranked.not_candidate (h : Ranked s) {r : Applicant}
    (hr : s.applicants.lookup a = some r) : ∀ c ∈ s.candidates, c.1 ≠ a := by
  rintro c hc rfl
  rw [h.apart c hc] at hr
  cases hr

/-- The address of a vote for an applicant has no NUL. -/
def Input.Plain : Input → Prop
  | .voteForApplicant a => ScriptUtils.Plain a
  | _ => True

instance : DecidablePred Input.Plain
  | .voteForApplicant a => inferInstanceAs (Decidable (ScriptUtils.Plain a))
  | .pledgeCoin | .takebackCoin | .abolishValidator .. | .quitAbolish _ | .voteForAbolish _ | .unidentified =>
    inferInstanceAs (Decidable True)

def Call.Plain (m : Call) : Prop := ScriptUtils.Plain m.sender ∧ m.input.Plain

instance (m : Call) : Decidable m.Plain := inferInstanceAs (Decidable (_ ∧ _))

section Call
variable {h : Host} {pay : Payee Call → ValidatorsVote → Option ValidatorsVote} {m : Call} {payee : Payee Call}
  {s t : ValidatorsVote} (hpay : ∀ s t, pay payee s = some t → t = s)
include hpay

theorem transferCoin_eq {dest : Address} {amount : Int64} (ht : transferCoin h pay m payee dest amount s = some t) :
    ∃ balance, t = { s with balance := balance } := by
  unfold transferCoin at ht
  split at ht
  · cases ht
    exact ⟨s.balance, rfl⟩
  unfold payCoin at ht
  split at ht
  · cases ht
  split at ht
  · cases ht
  · rename_i balance _
    exact ⟨balance, hpay _ _ ht⟩

theorem Turn.ranked (hplain : m.Plain) (hs : Ranked s) (ht : Turn h pay m payee s t) : Ranked t := by
  cases ht with
  | abolish proposals => exact hs.of_eq rfl rfl rfl
  | @superadd l i position c amount hmin hp hc hamount hl hi =>
    have hmore : c.2.toInt < amount.toInt := by
      rw [int64Add_toInt hamount]
      rw [Int64.lt_iff_toInt_lt] at hmin
      have hpos := minSuperadditionAmount_pos
      omega
    obtain ⟨A, B, hsplit, hlen⟩ := exists_split_getElem hc
    have horder := hs.order
    have hdistinct := hs.distinct
    rw [← findI0_some hp hc] at hl hi
    rw [hsplit] at horder hdistinct
    rw [hsplit, ← hlen, eraseIdx_length] at hl
    obtain ⟨C, D, hother, hCD, rfl, hnew, hle⟩ := insert_moved horder hdistinct hmore hl
    have hindex : i = C.length := findI0_append (fun e he => hother e (hCD ▸ List.mem_append_left _ he)) hi
    refine Ranked.store hnew ?_ ?_ fun hbehind => ?_
    · rw [List.map_append, List.map_cons] at hdistinct ⊢
      refine List.nodup_middle.mpr ?_
      rw [← List.map_append, ← hCD, List.map_append]
      exact List.nodup_middle.mp hdistinct
    · intro e he
      have hmem : e = (c.1, amount) ∨ e ∈ A ++ B := by
        rw [hCD]
        simpa [or_assoc, or_left_comm] using he
      rcases hmem with rfl | hmem
      · exact hs.apart c (hsplit ▸ List.mem_append_right _ (List.mem_cons_self ..))
      · refine hs.apart e ?_
        rw [hsplit]
        exact ((List.sublist_cons_self c B).append_left A).subset hmem
    · rw [hs.top, hsplit, take_insert_of_le (hbehind.trans (hindex.le.trans hle)),
        take_insert_of_le (hindex ▸ hbehind), hCD]
  | pledge hnone hdata =>
    refine hs.putApplicant ?_
    rw [toCString_of_plain hplain.1]
    exact findI0_none hnone
  | vote hdata ballot => exact hs.putApplicant (hs.not_candidate hdata)
  | @elect a data l i hinput hdata hl hi =>
    have ha : ScriptUtils.Plain a := by
      have hplain := hplain.2
      rwa [hinput] at hplain
    rw [toCString_of_plain ha] at hdata ⊢
    have hother := hs.not_candidate hdata
    have hranked := hs.eraseApplicant a
    obtain ⟨C, D, hCD, rfl, hnew⟩ := insert_split hs.order hother hl
    have hindex : i = C.length := findI0_append (fun e he => hother e (hCD ▸ List.mem_append_left _ he)) hi
    refine Ranked.store hnew ?_ ?_ ?_
    · rw [List.map_append, List.map_cons]
      refine List.nodup_middle.mpr (List.nodup_cons.mpr ?_)
      rw [← List.map_append, ← hCD]
      refine ⟨fun hmem => ?_, hs.distinct⟩
      obtain ⟨e, he, heq⟩ := List.mem_map.mp hmem
      exact hother e he heq
    · intro e he
      have hmem : e = (a, data.pledgeCoinAmount) ∨ e ∈ s.candidates := by
        rw [hCD]
        simpa [or_assoc, or_left_comm] using he
      rcases hmem with rfl | hmem
      · exact AList.lookup_erase ..
      · exact hranked.apart e hmem
    · intro hbehind
      change s.validators = _
      rw [hs.top, hCD, take_insert_of_le (by omega)]
  | payBack hdata hu =>
    obtain ⟨balance, rfl⟩ := transferCoin_eq hpay hu
    exact (hs.paid balance).eraseApplicant _
  | @leave u position c hc hu =>
    obtain ⟨balance, rfl⟩ := transferCoin_eq hpay hu
    obtain ⟨A, B, hsplit, hlen⟩ := exists_split_getElem hc
    have hsub := List.eraseIdx_sublist s.candidates position
    refine Ranked.store (hs.order.sublist hsub) (hs.distinct.sublist (hsub.map _))
      (fun e he => hs.apart e (hsub.subset he)) fun hbehind => ?_
    change s.validators = _
    rw [hs.top, ← hlen, hsplit, eraseIdx_length, take_insert_of_le (by omega)]
  | @punish a u l position left c forfeit leftCoin hc hleft hu hl proposals =>
    obtain ⟨balance, rfl⟩ := transferCoin_eq hpay hu
    have hsub := List.eraseIdx_sublist s.candidates position
    obtain ⟨b, hb, hraised⟩ := raised_spreadForfeit hl
    refine ⟨hraised.order hb (hs.order.sublist hsub), ?_, fun e he => ?_, rfl⟩
    · change (l.map Prod.fst).Nodup
      rw [hraised.names]
      exact hs.distinct.sublist (hsub.map _)
    · have hname : e.1 ∈ (s.candidates.eraseIdx position).map Prod.fst := by
        rw [← hraised.names]
        exact List.mem_map.mpr ⟨e, he, rfl⟩
      obtain ⟨e', he', heq⟩ := List.mem_map.mp hname
      rw [← heq]
      exact hs.apart e' (hsub.subset he')

end Call

def Codeless (p : Payee Call) : Prop := p = .account ∨ p = .refuses

instance : Std.Total before where
  total a b := by
    simp only [before, Int64.lt_iff_toInt_lt, ← Int64.toInt_inj]
    rcases lt_trichotomy a.2.toInt b.2.toInt with h | h | h
    · exact .inr (.inl h)
    · rcases le_total a.1 b.1 with hs | hs
      · exact .inl (.inr ⟨h, hs⟩)
      · exact .inr (.inr ⟨h.symm, hs⟩)
    · exact .inl (.inl h)

instance : IsTrans Candidate before where
  trans a b c h h' := by
    simp only [before, Int64.lt_iff_toInt_lt, ← Int64.toInt_inj] at h h' ⊢
    rcases h with h | ⟨h, hs⟩ <;> rcases h' with h' | ⟨h', hs'⟩
    · exact .inl (h'.trans h)
    · exact .inl (h' ▸ h)
    · exact .inl (h ▸ h')
    · exact .inr ⟨h.trans h', hs.trans hs'⟩

end ValidatorsVote
end OpenSesame
