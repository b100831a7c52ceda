
import OpenSesame.Lib.Respects
import OpenSesame.Theorems.Contract.Atp60Keys

/-! # The balances of the ATP60 contract

What a method does to the balances and supplies is a list of changes, each of an amount under one
key. -/

namespace OpenSesame
open Text StateOption Storage List Option
open ScriptUtils (toCString Plain toCString_of_plain)

namespace Atp60
variable {h : Host} {c : Context} {s t u : Storage Record} {key : String} {l l' : List (String × ℤ)}

/-! ### Changes of amounts -/

/-- What a list of changes does to a family of keys. -/
def moved (family : String → Bool) (l : List (String × ℤ)) : ℤ :=
  (l.map fun e => if family e.1 then e.2 else 0).sum

@[simp] theorem moved_nil (family : String → Bool) : moved family [] = 0 := rfl

@[simp] theorem moved_cons (family : String → Bool) (e : String × ℤ) (l : List (String × ℤ)) :
    moved family (e :: l) = (if family e.1 then e.2 else 0) + moved family l := by
  rw [moved, map_cons, sum_cons]
  rfl

theorem moved_append (family : String → Bool) (l l' : List (String × ℤ)) :
    moved family (l ++ l') = moved family l + moved family l' := by
  rw [moved, map_append, sum_append]
  rfl

/-- Every amount is the text of a number that is not negative. -/
def Sound (s : Storage Record) : Prop :=
  ∀ k v, isAmount k = true → s.lookup k = some v → ∃ x n, v = .text x ∧ Spells x n ∧ 0 ≤ n

/-- The amounts change as the list says. -/
structure Amounts (l : List (String × ℤ)) (s t : Storage Record) : Prop where
  lookup : ∀ k, isAmount k = true → (∀ e ∈ l, e.1 ≠ k) → t.lookup k = s.lookup k
  amount : ∀ k, isAmount k = true → t.amountAt k = s.amountAt k + moved (fun k' => k' == k) l
  total : ∀ family : String → Bool, (∀ k, family k = true → isAmount k = true) →
    t.total family = s.total family + moved family l
  sound : Sound s → Sound t

theorem Amounts.trans (hs : Amounts l s t) (ht : Amounts l' t u) : Amounts (l ++ l') s u where
  lookup k hk hl := by
    rw [ht.lookup k hk fun e he => hl e (mem_append_right _ he)]
    exact hs.lookup k hk fun e he => hl e (mem_append_left _ he)
  amount k hk := by rw [ht.amount k hk, hs.amount k hk, moved_append, add_assoc]
  total family hfamily := by rw [ht.total family hfamily, hs.total family hfamily, moved_append, add_assoc]
  sound hsound := ht.sound (hs.sound hsound)

/-- The amounts change as the list says, and the skus do not. -/
structure Changed (l : List (String × ℤ)) (s t : Storage Record) : Prop extends Amounts l s t where
  sku : ∀ k, isSku k = true → t.lookup k = s.lookup k

theorem Changed.refl (s : Storage Record) : Changed [] s s where
  lookup _ _ _ := rfl
  amount _ _ := (add_zero _).symm
  total _ _ := (add_zero _).symm
  sound := id
  sku _ _ := rfl

theorem Changed.trans (hs : Changed l s t) (ht : Changed l' t u) : Changed (l ++ l') s u where
  toAmounts := hs.toAmounts.trans ht.toAmounts
  sku k hk := (ht.sku k hk).trans (hs.sku k hk)

abbrev Aside : Storage Record → Storage Record → Prop := Changed []

theorem aside_trans (s t u : Storage Record) (hs : Aside s t) (ht : Aside t u) : Aside s u := Changed.trans hs ht

theorem isAmount_eq_false (hkey : isElse key = true) : isAmount key = false := by
  simp only [isElse, Bool.not_eq_true', Bool.or_eq_false_iff] at hkey
  exact hkey.1

theorem isSku_eq_false (hkey : isElse key = true) : isSku key = false := by
  simp only [isElse, Bool.not_eq_true', Bool.or_eq_false_iff] at hkey
  exact hkey.2

theorem ne_of_isElse {p : String → Bool} {k : String} (hkey : p key = false) (hk : p k = true) : k ≠ key := by
  rintro rfl
  rw [hkey] at hk
  cases hk

theorem amounts_insert (hkey : isAmount key = false) (v : Value Record) : Amounts [] s (s.insert key v) where
  lookup k hk _ := AList.lookup_insert_ne (ne_of_isElse hkey hk)
  amount k hk := by rw [amountAt_insert_ne (ne_of_isElse hkey hk), moved_nil, add_zero]
  total family hfamily := by
    have hnot : family key = false := by
      rw [Bool.eq_false_iff]
      intro hin
      exact absurd (hfamily key hin) (by rw [hkey]; exact nofun)
    rw [total_insert_of_not hnot, moved_nil, add_zero]
  sound hsound k v hk hlookup := by
    rw [AList.lookup_insert_ne (ne_of_isElse hkey hk)] at hlookup
    exact hsound k v hk hlookup

theorem aside_insert (hkey : isElse key = true) (v : Value Record) : Aside s (s.insert key v) where
  toAmounts := amounts_insert (isAmount_eq_false hkey) v
  sku _ hk := AList.lookup_insert_ne (ne_of_isElse (isSku_eq_false hkey) hk)

theorem changed_insert {x : String} {d : ℤ} (hkey : AmountKey key) (hx : Spells x (s.amountAt key + d))
    (hnonneg : Sound s → 0 ≤ s.amountAt key + d) : Changed [(key, d)] s (s.insert key (.text x)) where
  sku k hk := AList.lookup_insert_ne (ne_of_isElse hkey.sku hk)
  lookup k _ hl := AList.lookup_insert_ne (hl (key, d) (mem_singleton_self _)).symm
  amount k hk := by
    by_cases hkk : k = key
    · subst hkk
      rw [amountAt_insert, Value.amount, hx.amount_eq, moved_cons, moved_nil, if_pos (beq_self_eq_true k), add_zero]
    · rw [amountAt_insert_ne hkk, moved_cons, moved_nil, if_neg (by simpa using Ne.symm hkk), add_zero, add_zero]
  total family _ := by
    cases hfamily : family key with
    | true =>
      rw [total_insert hfamily, Value.amount, hx.amount_eq, moved_cons, moved_nil, if_pos hfamily]
      ring
    | false =>
      rw [total_insert_of_not hfamily, moved_cons, moved_nil, if_neg (by rw [hfamily]; exact nofun), add_zero, add_zero]
  sound hsound k v hk hlookup := by
    rcases Records.lookup_insert_cases hlookup with ⟨rfl, rfl⟩ | ⟨-, hold⟩
    · exact ⟨x, _, rfl, hx, hnonneg hsound⟩
    · exact hsound k v hk hold

theorem changed_erase {d : ℤ} (hsku : isSku key = false) (hd : s.amountAt key + d = 0) :
    Changed [(key, d)] s (s.erase key) where
  sku k hk := AList.lookup_erase_ne (ne_of_isElse hsku hk)
  lookup k _ hl := AList.lookup_erase_ne (hl (key, d) (List.mem_singleton_self _)).symm
  amount k hk := by
    by_cases hkk : k = key
    · subst hkk
      rw [Storage.amountAt, AList.lookup_erase, elim_none, moved_cons, moved_nil, if_pos (beq_self_eq_true k), add_zero,
        hd]
    · rw [Storage.amountAt, AList.lookup_erase_ne hkk, moved_cons, moved_nil, if_neg (by simpa using Ne.symm hkk),
        add_zero, add_zero]
      rfl
  total family _ := by
    cases hfamily : family key with
    | true =>
      rw [Storage.total_erase hfamily, moved_cons, moved_nil, if_pos hfamily]
      omega
    | false =>
      rw [Storage.total_erase_of_not hfamily, moved_cons, moved_nil, if_neg (by rw [hfamily]; rintro ⟨⟩), add_zero,
        add_zero]
  sound hsound k v hk hlookup := hsound k v hk (Records.lookup_erase_cases hlookup).2

variable {v : Value Record} {p : Prop}

section Host
variable {α : Type} {a : α}

theorem assert_eq_some [Decidable p] {r : Unit} (hrun : assert p s = some (r, t)) : p ∧ s = t := by
  unfold assert at hrun
  split_ifs at hrun with hp
  · exact ⟨hp, (of_pure hrun).2⟩
  · cases hrun

theorem assert_bind [Decidable p] {k : Unit → Method α} (hrun : (assert p >>= k) s = some (a, t)) :
    p ∧ k () s = some (a, t) := by
  obtain ⟨_, s', hassert, hrun⟩ := of_bind hrun
  obtain ⟨hp, rfl⟩ := assert_eq_some hassert
  exact ⟨hp, hrun⟩

theorem call_eq_some {o : Option α} (hrun : call o s = some (a, t)) : o = some a ∧ s = t := by
  cases o with
  | none => cases hrun
  | some b =>
    cases hrun
    exact ⟨rfl, rfl⟩

theorem call_bind {β : Type} {o : Option β} {k : β → Method α} (hrun : (call o >>= k) s = some (a, t)) :
    ∃ b, o = some b ∧ k b s = some (a, t) := by
  obtain ⟨b, s', hcall, hrun⟩ := of_bind hrun
  obtain ⟨ho, rfl⟩ := call_eq_some hcall
  exact ⟨b, ho, hrun⟩

theorem load_eq_some {v : Option (Value Record)} (hrun : load key s = some (v, t)) : s.load key = v ∧ s = t := by
  cases hrun
  exact ⟨rfl, rfl⟩

theorem store_eq_some {r : Unit} (hrun : store h key v s = some (r, t)) : t = s.insert (toCString key) v := by
  obtain ⟨t', ht', hrun⟩ := map_eq_some_iff.mp hrun
  cases hrun
  exact eq_of_store ht'

theorem del_eq_some {r : Unit} (hrun : del key s = some (r, t)) : t = s.erase (toCString key) := by
  obtain ⟨t', ht', hrun⟩ := map_eq_some_iff.mp hrun
  cases hrun
  exact eq_of_del ht'

end Host

/-! ### Methods that leave amounts and skus alone -/

variable {isSub : Bool} {isDft : Option Bool} {a : Address}

/-- A method that leaves amounts and skus alone. -/
def Elsewhere {α : Type} (m : Method α) : Prop := Walks Aside m

namespace Elsewhere
variable {α β : Type} {m m' : Method α}

protected theorem pure (a : α) : Elsewhere (pure a) := Walks.pure Changed.refl a

theorem throws : Elsewhere (throw : Method α) := nofun

protected theorem bind {k : α → Method β} (hm : Elsewhere m) (hk : ∀ a, Elsewhere (k a)) : Elsewhere (m >>= k) :=
  Walks.bind aside_trans hm hk

protected theorem ite [Decidable p] (hm : Elsewhere m) (hm' : Elsewhere m') : Elsewhere (if p then m else m') :=
  Walks.ite hm hm'

theorem of_same (hm : ∀ {s a t}, m s = some (a, t) → s = t) : Elsewhere m := by
  intro s a t hrun
  rw [hm hrun]
  exact .refl t

theorem asserts [Decidable p] : Elsewhere (assert p) := of_same fun hrun => (assert_eq_some hrun).2

theorem calls {o : Option α} : Elsewhere (call o) := of_same fun hrun => (call_eq_some hrun).2

theorem loads : Elsewhere (load key) := of_same fun hrun => (load_eq_some hrun).2

theorem stores (hkey : isElse (toCString key) = true) : Elsewhere (store h key v) := by
  intro s r t hrun
  rw [store_eq_some hrun]
  exact aside_insert hkey v

theorem stored {name : String} {parts : List String} (hname : name ∈ otherKeys) :
    Elsewhere (store h (makeKey name parts) v) :=
  stores (isElse_makeKey hname parts)

theorem exist : Elsewhere (checkExist key) := .bind loads fun _ => calls

theorem notExist : Elsewhere (checkNotExist key) := .bind loads fun _ => asserts

theorem seller : Elsewhere (checkIsSeller a) := by
  refine .bind exist fun value => ?_
  split
  · exact .pure _
  · exact throws

theorem bySeller {q : Bool → Prop} [DecidablePred q] (hm : Elsewhere m) :
    Elsewhere (do assert (q (← checkIsSeller a)); m) :=
  .bind seller fun _ => .bind asserts fun _ => hm

theorem sku {skuId : String} : Elsewhere (loadSku skuId) := by
  refine .bind exist fun value => ?_
  split
  · exact .pure _
  · exact throws

theorem tranche {trnId dftTrnId : Option String} : Elsewhere (checkTranche trnId dftTrnId isDft) := by
  unfold checkTranche
  split
  · exact .pure _
  · refine .bind asserts fun _ => ?_
    dsimp only
    split
    · exact .bind asserts fun _ => .pure _
    · exact .bind asserts fun _ => .pure _
    · exact .pure _

variable {id : String} {isAdd : Bool}

theorem addItem (hkey : isElse (toCString key) = true) : Elsewhere (checkAddArrayItem h isAdd id key) := by
  refine .bind loads fun value => ?_
  split
  · exact .ite (.bind (stores hkey) fun _ => .pure _) (.pure _)
  · refine .ite (.pure _) (.ite (.pure _) ?_)
    exact .ite (.bind (stores hkey) fun _ => .pure _) (.pure _)
  · exact throws

theorem subItem (hkey : isElse (toCString key) = true) : Elsewhere (checkSubArrayItem h isSub id key) := by
  refine .bind loads fun value => ?_
  split
  · exact .pure _
  · refine .ite ?_ (.pure _)
    exact .ite (.bind (stores hkey) fun _ => .pure _) (.pure _)
  · exact throws

variable {keyPgs keyPg : String} {parts : List String}

theorem addItems (hkey : keyPg ∈ otherKeys) :
    ∀ {left : ℕ} {i ret : ℤ}, Elsewhere (addLoop h isAdd id keyPg parts left i ret)
  | 0, _, _ => .pure _
  | left + 1, i, ret => by
    refine .bind (addItem (isElse_makeKey hkey _)) fun ret' => ?_
    exact .ite (.pure _) (addItems hkey)

theorem subItems (hkey : keyPg ∈ otherKeys) :
    ∀ {left : ℕ} {i ret : ℤ}, Elsewhere (subLoop h isSub id keyPg parts left i ret)
  | 0, _, _ => .pure _
  | left + 1, i, ret => by
    refine .bind (subItem (isElse_makeKey hkey _)) fun ret' => ?_
    exact .ite (.pure _) (subItems hkey)

theorem addPage (hpg : keyPg ∈ otherKeys) {pgcnt : ℤ} : Elsewhere (checkAddPageItem h isAdd pgcnt id keyPg parts) := by
  refine .bind (addItems hpg) fun ⟨i, ret⟩ => .ite ?_ (.pure _)
  exact .bind (addItem (isElse_makeKey hpg _)) fun _ => .pure _

theorem pages {pgsVal : Option (Value Record)} : Elsewhere (readPages pgsVal) := by
  unfold readPages
  split
  · exact .pure _
  · exact .pure _
  · exact throws

theorem addPages (hpgs : isElse (toCString (makeKey keyPgs parts)) = true) (hpg : keyPg ∈ otherKeys) :
    Elsewhere (checkAddPagesItem h isAdd id keyPgs keyPg parts) := by
  refine .bind loads fun pgsVal => .bind pages fun pgs => .bind (addPage hpg) fun ret => .ite ?_ (.pure _)
  exact .bind (stores hpgs) fun _ => .pure _

theorem addListed (hpgs : keyPgs ∈ otherKeys) (hpg : keyPg ∈ otherKeys) :
    Elsewhere (checkAddPagesItem h isAdd id keyPgs keyPg parts) :=
  addPages (isElse_makeKey hpgs parts) hpg

theorem subPages (hpgs : keyPgs ∈ otherKeys) (hpg : keyPg ∈ otherKeys) :
    Elsewhere (checkSubPagesItem h isSub id keyPgs keyPg parts) := by
  refine .bind loads fun pgsVal => ?_
  split
  · exact .pure _
  · refine .bind (subItems hpg) fun ret => .ite ?_ (.pure _)
    exact .bind (stored hpgs) fun _ => .pure _
  · exact throws

end Elsewhere

/-! ### Amounts that are added and taken away -/

section Values
variable {val : String} {n : ℤ}

theorem Sound.nonneg (hs : Sound s) (hkey : isAmount key = true) : 0 ≤ s.amountAt key := by
  rw [amountAt]
  cases hlookup : s.lookup key with
  | none => exact le_refl 0
  | some v =>
    obtain ⟨x, n, rfl, hx, hnonneg⟩ := hs key v hkey hlookup
    rw [elim_some, Value.amount, hx.amount_eq]
    exact hnonneg

theorem changed_addVal (hkey : AmountKey key) (hval : Spells val n) (hn : 0 ≤ n) {r : Bool}
    (hrun : addVal h val key s = some (r, t)) : Changed [(key, n)] s t := by
  have hnonneg : Sound s → 0 ≤ s.amountAt key + n := fun hs => add_nonneg (hs.nonneg hkey.amount) hn
  have hread := toCString_of_plain hkey.plain
  obtain ⟨v, s₁, hload, hrun⟩ := of_bind hrun
  obtain ⟨rfl, rfl⟩ := load_eq_some hload
  cases hold : s.load key with
  | none =>
    rw [hold] at hrun
    obtain ⟨x, hx, hrun⟩ := call_bind hrun
    obtain ⟨_, s₃, hstore, hrun⟩ := of_bind hrun
    cases hrun
    obtain ⟨zero, n', hzero, hn', hsum⟩ := int64Add_spells hx
    obtain rfl := hzero.unique (by decide : Spells "0" 0)
    obtain rfl := hval.unique hn'
    have hamount := amountAt_of_none hold
    rw [hread] at hamount
    rw [store_eq_some hstore, hread]
    refine changed_insert hkey ?_ hnonneg
    rwa [hamount]
  | some old =>
    rw [hold] at hrun
    obtain ⟨old', hold', hrun⟩ := call_bind hrun
    rw [Value.text?_eq_some.mp hold'] at hold
    obtain ⟨x, hx, hrun⟩ := call_bind hrun
    obtain ⟨_, s₄, hstore, hrun⟩ := of_bind hrun
    cases hrun
    obtain ⟨m, n', hm, hn', hsum⟩ := int64Add_spells hx
    obtain rfl := hval.unique hn'
    have hamount := amountAt_of_load hold
    rw [hread, Value.amount, hm.amount_eq] at hamount
    rw [store_eq_some hstore, hread]
    refine changed_insert hkey ?_ hnonneg
    rwa [hamount]

theorem subVal_cases (hkey : AmountKey key) (hval : Spells val n)
    {ret : ℤ} (hrun : subVal h isSub val key s = some (ret, t)) :
    (ret = -1 ∧ t = s ∧ (s.lookup key = none ∨ s.amountAt key < n)) ∨
      ret ≠ -1 ∧ n ≤ s.amountAt key ∧ if isSub = true then Changed [(key, -n)] s t else t = s := by
  have hread := toCString_of_plain hkey.plain
  obtain ⟨v, s₁, hload, hrun⟩ := of_bind hrun
  obtain ⟨rfl, rfl⟩ := load_eq_some hload
  cases hold : s.load key with
  | none =>
    rw [hold] at hrun
    cases hrun
    exact .inl ⟨rfl, rfl, .inl ((load_of_plain hkey.plain).symm.trans hold)⟩
  | some old =>
    rw [hold] at hrun
    obtain ⟨old', hold', hrun⟩ := call_bind hrun
    rw [Value.text?_eq_some.mp hold'] at hold
    obtain ⟨x, hx, hrun⟩ := call_bind hrun
    obtain ⟨sign, hsign, hrun⟩ := call_bind hrun
    obtain ⟨m, n', hm, hn', hdiff⟩ := int64Sub_spells hx
    obtain rfl := hval.unique hn'
    obtain ⟨d, zero, hd, hzero, -, hle, -⟩ := int64Compare_spells hsign
    obtain rfl := hzero.unique (by decide : Spells "0" 0)
    obtain rfl := hd.unique hdiff
    have hamount := amountAt_of_load hold
    rw [hread, Value.amount, hm.amount_eq] at hamount
    split_ifs at hrun with hneg hsub hrest
    · cases hrun
      refine .inl ⟨rfl, rfl, .inr ?_⟩
      omega
    · obtain ⟨_, s₅, hstore, hrun⟩ := of_bind hrun
      cases hrun
      have hspells : Spells x (s.amountAt key + -n) := by rwa [hamount, ← sub_eq_add_neg]
      refine .inr ⟨by decide, by omega, ?_⟩
      rw [if_pos hsub, store_eq_some hstore, hread]
      exact changed_insert hkey hspells fun _ => by omega
    · obtain ⟨_, s₅, hdel, hrun⟩ := of_bind hrun
      cases hrun
      obtain rfl : x = "0" := not_not.mp hrest
      have hzero := hdiff.unique (by decide : Spells "0" 0)
      refine .inr ⟨by decide, by omega, ?_⟩
      rw [if_pos hsub, del_eq_some hdel, hread]
      exact changed_erase hkey.sku (by omega)
    · cases hrun
      refine .inr ⟨by decide, by omega, ?_⟩
      rw [if_neg hsub]

end Values

/-- The amounts change as the list says, and of the skus only the record of one. -/
structure Done (sku : String) (r : Sku) (l : List (String × ℤ)) (s t : Storage Record) : Prop extends
    Amounts l s t where
  kept : t.lookup (skuKey sku) = some (.json (.sku r))
  others : ∀ k, isSku k = true → k ≠ skuKey sku → t.lookup k = s.lookup k

theorem isAmount_skuKey (sku : String) : isAmount (skuKey sku) = false := by
  simp [isAmount, segments_skuKey]

theorem done_insert (sku : String) (r : Sku) : Done sku r [] s (s.insert (skuKey sku) (.json (.sku r))) where
  toAmounts := amounts_insert (isAmount_skuKey sku) _
  kept := AList.lookup_insert _
  others _ _ hne := AList.lookup_insert_ne hne

variable {sku : String} {r : Sku}

theorem Changed.done (hchanged : Changed l s t)
    (hload : s.lookup (skuKey sku) = some (.json (.sku r))) : Done sku r l s t where
  toAmounts := hchanged.toAmounts
  kept := (hchanged.sku _ (isSku_skuKey sku)).trans hload
  others k hk _ := hchanged.sku k hk

theorem Changed.trans_done (hs : Changed l s t) (ht : Done sku r l' t u) : Done sku r (l ++ l') s u where
  toAmounts := hs.toAmounts.trans ht.toAmounts
  kept := ht.kept
  others k hk hne := (ht.others k hk hne).trans (hs.sku k hk)

theorem Done.trans_changed (hs : Done sku r l s t) (ht : Changed l' t u) : Done sku r (l ++ l') s u where
  toAmounts := hs.toAmounts.trans ht.toAmounts
  kept := (ht.sku _ (isSku_skuKey sku)).trans hs.kept
  others k hk hne := (ht.sku k hk).trans (hs.others k hk hne)

/-! ### The accounts -/

/-- The sums agree, of every sku that there is and of every account. -/
structure Accounts (s : Storage Record) : Prop where
  sound : Sound s
  known : ∀ sku r, s.lookup (skuKey sku) = some (.json (.sku r)) → clean sku = true
  supply : ∀ sku r, s.lookup (skuKey sku) = some (.json (.sku r)) → Spells r.totalSupply (s.total (holders sku))
  tranches : ∀ sku a, clean sku = true → clean a = true → s.amountAt (bleKey sku a) = s.total (tranchesOf sku a)
  absent : ∀ sku, clean sku = true → s.lookup (skuKey sku) = none → ∀ k, concerns sku k = true → s.lookup k = none
  default : ∀ sku r trn, s.lookup (skuKey sku) = some (.json (.sku r)) → r.defaultTrancheId = some trn →
    clean trn = true

/-- The supply of every tranche is what the accounts have in it. -/
def TrancheSupply (s : Storage Record) : Prop :=
  ∀ sku trn, clean sku = true → clean trn = true → s.amountAt (spyKey sku trn) = s.total (trancheHolders sku trn)

theorem Changed.accounts (haside : Changed [] s t) (hs : Accounts s) : Accounts t where
  sound := haside.sound hs.sound
  known sku r hload := hs.known sku r ((haside.sku _ (isSku_skuKey sku)).symm.trans hload)
  supply sku r hload := by
    rw [haside.total _ fun k hk => isAmount_of_concerns (concerns_of_holders hk), moved_nil, add_zero]
    exact hs.supply sku r ((haside.sku _ (isSku_skuKey sku)).symm.trans hload)
  tranches sku a hsku ha := by
    rw [haside.amount _ (amountKey_bleKey hsku ha).amount,
      haside.total _ fun k hk => isAmount_of_concerns (concerns_of_tranchesOf hk), hs.tranches sku a hsku ha]
    rfl
  absent sku hsku hload k hk := by
    rw [haside.lookup k (isAmount_of_concerns hk) nofun]
    exact hs.absent sku hsku ((haside.sku _ (isSku_skuKey sku)).symm.trans hload) k hk
  default sku r trn hload := hs.default sku r trn ((haside.sku _ (isSku_skuKey sku)).symm.trans hload)

theorem Changed.trancheSupply (haside : Changed [] s t) (hs : TrancheSupply s) : TrancheSupply t := by
  intro sku trn hsku htrn
  rw [haside.amount _ (amountKey_spyKey hsku htrn).amount,
    haside.total _ fun k hk => isAmount_of_concerns (concerns_of_trancheHolders hk), hs sku trn hsku htrn]
  rfl

theorem moved_eq_zero {family : String → Bool} {sku sku' : String} (hne : sku ≠ sku')
    (hl : ∀ e ∈ l, concerns sku e.1 = true) (hfamily : ∀ k, family k = true → concerns sku' k = true) :
    moved family l = 0 := by
  refine sum_eq_zero fun x hx => ?_
  obtain ⟨e, he, rfl⟩ := mem_map.mp hx
  split_ifs with hin
  · exact absurd (eq_of_concerns (hl e he) (hfamily _ hin)) hne
  · rfl

theorem moved_beq_eq_zero {k sku sku' : String} (hne : sku ≠ sku') (hl : ∀ e ∈ l, concerns sku e.1 = true)
    (hk : concerns sku' k = true) : moved (fun k' => k' == k) l = 0 := by
  refine moved_eq_zero hne hl fun k' hk' => ?_
  rw [beq_iff_eq.mp hk']
  exact hk

/-- What a method has booked of a sku: its sums change alike. -/
structure Booked (sku : String) (r : Sku) (l : List (String × ℤ)) (s t : Storage Record) : Prop extends
    Done sku r l s t where
  known : clean sku = true
  concerned : ∀ e ∈ l, concerns sku e.1 = true
  supply : Spells r.totalSupply (s.total (holders sku) + moved (holders sku) l)
  tranches : ∀ a, clean a = true → moved (fun k => k == bleKey sku a) l = moved (tranchesOf sku a) l
  default : ∀ trn, r.defaultTrancheId = some trn → clean trn = true

/-- The supplies of the tranches of a sku change with what the accounts have in them. -/
def Supplied (sku : String) (l : List (String × ℤ)) : Prop :=
  ∀ trn, clean trn = true → moved (fun k => k == spyKey sku trn) l = moved (trancheHolders sku trn) l

theorem Booked.accounts (hdone : Booked sku r l s t) (hs : Accounts s) : Accounts t where
  sound := hdone.sound hs.sound
  known sku' r' hload := by
    by_cases hne : sku = sku'
    · rw [← hne]
      exact hdone.known
    · rw [hdone.others _ (isSku_skuKey sku') fun heq => hne (skuKey_inj heq).symm] at hload
      exact hs.known sku' r' hload
  supply sku' r' hload := by
    rw [hdone.total _ fun k hk => isAmount_of_concerns (concerns_of_holders hk)]
    by_cases hne : sku = sku'
    · subst hne
      rw [hdone.kept] at hload
      obtain rfl : r = r' := Record.sku.inj (Value.json.inj (some.inj hload))
      exact hdone.supply
    · rw [hdone.others _ (isSku_skuKey sku') fun heq => hne (skuKey_inj heq).symm] at hload
      rw [moved_eq_zero hne hdone.concerned fun k hk => concerns_of_holders hk, add_zero]
      exact hs.supply sku' r' hload
  tranches sku' a hsku' ha := by
    rw [hdone.amount _ (amountKey_bleKey hsku' ha).amount,
      hdone.total _ fun k hk => isAmount_of_concerns (concerns_of_tranchesOf hk), hs.tranches sku' a hsku' ha]
    by_cases hne : sku = sku'
    · subst hne
      rw [hdone.tranches a ha]
    · rw [moved_eq_zero hne hdone.concerned fun k hk => concerns_of_tranchesOf hk,
        moved_beq_eq_zero hne hdone.concerned (concerns_bleKey hsku' ha)]
  absent sku' hsku' hload k hk := by
    have hne : sku ≠ sku' := by
      rintro rfl
      rw [hdone.kept] at hload
      cases hload
    rw [hdone.others _ (isSku_skuKey sku') fun heq => hne (skuKey_inj heq).symm] at hload
    rw [hdone.lookup k (isAmount_of_concerns hk)]
    · exact hs.absent sku' hsku' hload k hk
    · rintro e he rfl
      exact hne (eq_of_concerns (hdone.concerned e he) hk)
  default sku' r' trn hload htrn := by
    by_cases hne : sku = sku'
    · subst hne
      rw [hdone.kept] at hload
      obtain rfl : r = r' := Record.sku.inj (Value.json.inj (some.inj hload))
      exact hdone.default trn htrn
    · rw [hdone.others _ (isSku_skuKey sku') fun heq => hne (skuKey_inj heq).symm] at hload
      exact hs.default sku' r' trn hload htrn

theorem Booked.trancheSupply (hdone : Booked sku r l s t) (hs : TrancheSupply s)
    (hsupplied : Supplied sku l) : TrancheSupply t := by
  intro sku' trn hsku' htrn
  rw [hdone.amount _ (amountKey_spyKey hsku' htrn).amount,
    hdone.total _ fun k hk => isAmount_of_concerns (concerns_of_trancheHolders hk), hs sku' trn hsku' htrn]
  by_cases hne : sku = sku'
  · subst hne
    rw [hsupplied trn htrn]
  · rw [moved_eq_zero hne hdone.concerned fun k hk => concerns_of_trancheHolders hk,
      moved_beq_eq_zero hne hdone.concerned (concerns_spyKey hsku' htrn)]

/-! ### Methods that move amounts -/

section Methods
variable {skuId trn val : String} {trnId : Option String} {n : ℤ}

theorem checkExist_eq_some (hrun : checkExist key s = some (v, t)) : s.load key = some v ∧ s = t := by
  obtain ⟨v', s₁, hload, hrun⟩ := of_bind hrun
  obtain ⟨rfl, rfl⟩ := load_eq_some hload
  exact call_eq_some hrun

variable {α : Type}

theorem checkExist_bind {a : α} {k : Value Record → Method α}
    (hrun : (checkExist key >>= k) s = some (a, t)) : ∃ v, s.load key = some v ∧ k v s = some (a, t) := by
  obtain ⟨v, s', hexist, hrun⟩ := of_bind hrun
  obtain ⟨hload, rfl⟩ := checkExist_eq_some hexist
  exact ⟨v, hload, hrun⟩

theorem checkNotExist_eq_some {u : Unit} (hrun : checkNotExist key s = some (u, t)) : s.load key = none ∧ s = t := by
  obtain ⟨v, s₁, hload, hrun⟩ := of_bind hrun
  obtain ⟨rfl, rfl⟩ := load_eq_some hload
  exact assert_eq_some hrun

theorem eq_of_checkSpu {spuId : Option String} {u : Unit} (hrun : checkSpu spuId s = some (u, t)) : s = t := by
  cases spuId with
  | none => exact (of_pure hrun).2
  | some spuId =>
    obtain ⟨v, -, hrun⟩ := checkExist_bind hrun
    exact (of_pure hrun).2

theorem seller_bind {x : α} {k : Unit → Method α}
    (hrun : (checkIsSeller a >>= fun r => assert (r = true) >>= k) s = some (x, t)) : k () s = some (x, t) := by
  obtain ⟨r, s', hseller, hrun⟩ := of_bind hrun
  obtain ⟨v, -, hseller⟩ := checkExist_bind hseller
  split at hseller
  · cases hseller
    exact (assert_bind hrun).2
  · cases hseller

theorem loadSku_bind {x : α} {k : Sku → Method α} (hrun : (loadSku skuId >>= k) s = some (x, t)) :
    ∃ r, s.lookup (skuKey (toCString skuId)) = some (.json (.sku r)) ∧ k r s = some (x, t) := by
  obtain ⟨r, s', hsku, hrun⟩ := of_bind hrun
  obtain ⟨v, hload, hsku⟩ := checkExist_bind hsku
  rw [Storage.load, ← skuKey, toCString_skuKey] at hload
  split at hsku
  · cases hsku
    exact ⟨r, hload, hrun⟩
  · cases hsku

theorem loadSku_clean {x : α} {k : Sku → Method α} (hsku : clean skuId = true)
    (hrun : (loadSku skuId >>= k) s = some (x, t)) :
    ∃ r, s.lookup (skuKey skuId) = some (.json (.sku r)) ∧ k r s = some (x, t) := by
  have hbind := loadSku_bind hrun
  rwa [toCString_of_plain (plain_of_clean hsku)] at hbind

theorem checkTranche_eq_some {dftTrnId : Option String}
    (hrun : checkTranche trnId dftTrnId isDft s = some (trn, t)) : (trn = "0" ∨ trnId = some trn) ∧ s = t := by
  unfold checkTranche at hrun
  split at hrun
  · cases hrun
    exact ⟨.inl rfl, rfl⟩
  · obtain ⟨-, hrun⟩ := assert_bind hrun
    dsimp only at hrun
    split at hrun
    · obtain ⟨-, hrun⟩ := assert_bind hrun
      cases hrun
      exact ⟨.inr rfl, rfl⟩
    · obtain ⟨-, hrun⟩ := assert_bind hrun
      cases hrun
      exact ⟨.inr rfl, rfl⟩
    · cases hrun
      exact ⟨.inr rfl, rfl⟩

theorem checkTranche_bind {x : α} {dftTrnId : Option String} {k : String → Method α}
    (htrnId : ∀ x, trnId = some x → clean x = true) (hrun : (checkTranche trnId dftTrnId isDft >>= k) s = some (x, t)) :
    ∃ trn, clean trn = true ∧ k trn s = some (x, t) := by
  obtain ⟨trn, s', htranche, hrun⟩ := of_bind hrun
  obtain ⟨htrn, rfl⟩ := checkTranche_eq_some htranche
  refine ⟨trn, ?_, hrun⟩
  rcases htrn with rfl | hsome
  · decide
  · exact htrnId _ hsome

theorem Elsewhere.allowance {sender source : Address} : Elsewhere (useAllowance h sender source skuId trn val) := by
  refine .ite (.pure _) (.bind exist fun _ => .bind calls fun _ => .bind calls fun _ => ?_)
  exact .bind asserts fun _ => .bind calls fun _ => stored (by decide)

theorem Elsewhere.leave {trnSubRet : ℤ} {source : Address} : Elsewhere (leaveTranche h trnSubRet skuId trn source) :=
  .ite (.bind (subPages (by decide) (by decide)) fun _ => .pure _) (.pure _)

theorem Elsewhere.spu {spuId : Option String} : Elsewhere (addToSpu h skuId spuId) := by
  cases spuId with
  | none => exact .pure _
  | some spuId => exact .bind (addListed (by decide) (by decide)) fun _ => .pure _

theorem total_eq_zero {family : String → Bool} (hnone : ∀ k, family k = true → s.lookup k = none) :
    s.total family = 0 := by
  refine sum_eq_zero fun x hx => ?_
  obtain ⟨e, he, rfl⟩ := mem_map.mp hx
  dsimp only
  split_ifs with hin
  · exact absurd ((hnone e.1 hin).symm.trans (Records.mem_entries he)) nofun
  · rfl

theorem Accounts.tranche_le (hs : Accounts s) (hsku : clean skuId = true) (htrn : clean trn = true)
    (ha : clean a = true) : s.amountAt (bletrnKey skuId trn a) ≤ s.amountAt (bleKey skuId a) := by
  have hin : tranchesOf skuId a (bletrnKey skuId trn a) = true := by
    rw [tranchesOf_bletrnKey hsku htrn ha]
    simp
  have hrest : 0 ≤ Storage.total (tranchesOf skuId a) (s.erase (bletrnKey skuId trn a)) := by
    refine Records.sum_nonneg fun k v hk => ?_
    split_ifs with hfamily
    · obtain ⟨x, m, rfl, hx, hnonneg⟩ := hs.sound k v (isAmount_of_concerns (concerns_of_tranchesOf hfamily))
        (Records.lookup_erase_cases hk).2
      rw [Value.amount, hx.amount_eq]
      exact hnonneg
    · exact le_refl 0
  rw [Storage.total_erase hin] at hrest
  rw [hs.tranches skuId a hsku ha]
  omega

theorem checkSubBalance_changed {sender source : Address} {isDftTrn : Bool} (hs : Accounts s)
    (hsku : clean skuId = true) (htrnId : ∀ x, trnId = some x → clean x = true) (hval : Spells val n) (hn : 0 < n)
    (hsource : clean source = true)
    (hrun : checkSubBalance h sender source skuId trnId val true isDftTrn s = some (trn, t)) :
    (∃ r, s.lookup (skuKey skuId) = some (.json (.sku r))) ∧ clean trn = true ∧
      Changed [(bletrnKey skuId trn source, -n), (bleKey skuId source, -n)] s t := by
  obtain ⟨r, hload, hrun⟩ := loadSku_clean hsku hrun
  obtain ⟨trn', htrn, hrun⟩ := checkTranche_bind htrnId hrun
  obtain ⟨_, -, hrun⟩ := checkExist_bind hrun
  obtain ⟨_, s₄, hallowance, hrun⟩ := of_bind hrun
  obtain ⟨ret, s₅, hsub, hrun⟩ := of_bind hrun
  obtain ⟨hret, hrun⟩ := assert_bind hrun
  obtain ⟨_, s₇, hsubSku, hrun⟩ := of_bind hrun
  obtain ⟨rfl, rfl⟩ := of_pure hrun
  have haside := Elsewhere.allowance hallowance
  have hble := amountKey_bleKey hsku hsource
  have hbletrn := amountKey_bletrnKey hsku htrn hsource
  rcases subVal_cases hbletrn hval hsub with ⟨hfail, -⟩ | ⟨-, hle, hchanged⟩
  · exact absurd hfail hret
  rw [if_pos rfl] at hchanged
  obtain ⟨_, s₈, hleave, hsubSku⟩ := of_bind hsubSku
  obtain ⟨ret', s₉, hsub', hsubSku⟩ := of_bind hsubSku
  cases hsubSku
  have hleft : Changed [(bletrnKey skuId trn' source, -n)] s s₈ :=
    (haside.trans hchanged).trans (Elsewhere.leave hleave)
  refine ⟨⟨r, hload⟩, htrn, ?_⟩
  -- The balance of the sku is no less than the one of the tranche, so the second subtraction is made as well.
  rcases subVal_cases hble hval hsub' with ⟨-, -, hfail⟩ | ⟨-, -, hchanged'⟩
  · have hsame : s₈.amountAt (bleKey skuId source) = s.amountAt (bleKey skuId source) := by
      rw [hleft.amount _ hble.amount, moved_cons, bletrnKey_beq_bleKey hsku htrn hsource hsku hsource]
      simp
    have htrnSame : s₄.amountAt (bletrnKey skuId trn' source) = s.amountAt (bletrnKey skuId trn' source) := by
      rw [haside.amount _ hbletrn.amount, moved_nil, add_zero]
    have hbound := hs.tranche_le hsku htrn hsource
    rcases hfail with hnone | hlt
    · rw [Storage.amountAt, hnone, elim_none] at hsame
      omega
    · omega
  · rw [if_pos rfl] at hchanged'
    exact hleft.trans hchanged'

theorem checkAddBalance_changed {dest : Address} (hsku : clean skuId = true) (htrn : clean trn = true)
    (hdest : clean dest = true) (hval : Spells val n) (hn : 0 ≤ n) {r : Unit}
    (hrun : checkAddBalance h dest skuId trn val s = some (r, t)) :
    Changed [(bleKey skuId dest, n), (bletrnKey skuId trn dest, n)] s t := by
  obtain ⟨_, s₁, hble, hrun⟩ := of_bind hrun
  obtain ⟨isNew, s₂, hbletrn, hrun⟩ := of_bind hrun
  have hfirst := changed_addVal (amountKey_bleKey hsku hdest) hval hn hble
  have hsecond := changed_addVal (amountKey_bletrnKey hsku htrn hdest) hval hn hbletrn
  have hpages : Elsewhere (if isNew = true then do
      let _ ← checkAddPagesItem h true trn keys.bletrnspgs keys.bletrnspg [skuId, dest]
      return ()
    else pure ()) :=
    .ite (.bind (.addListed (by decide) (by decide)) fun _ => .pure _) (.pure _)
  exact (hfirst.trans hsecond).trans (hpages hrun)

theorem spells_of_checkPositive (hval : checkPositive val = true) : ∃ n, Spells val n ∧ 0 < n := by
  unfold checkPositive at hval
  cases hread : Strings.safeStoi64 val with
  | none =>
    rw [hread] at hval
    cases hval
  | some x =>
    rw [hread, any_some, decide_eq_true_eq, Int64.lt_iff_toInt_lt, Int64.toInt_zero] at hval
    exact ⟨x.toInt, by rw [Spells, hread, map_some], hval⟩

end Methods

end Atp60
end OpenSesame
