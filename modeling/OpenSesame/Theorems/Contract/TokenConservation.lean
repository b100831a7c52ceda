import OpenSesame.Contract.ContractBasedToken

/-! # The balances and allowances of the token contract

A balance is under an address and an allowance under a key with underscores, so neither is written
in place of the other. -/

namespace OpenSesame
open Text Storage Base58
open ScriptUtils (toCString Plain toCString_of_plain)
open Option (bind_eq_some_iff)

namespace ContractBasedToken

theorem append_cons_inj {l l' r r' : List Char} (h : '_' ∉ l) (h' : '_' ∉ l') (heq : l ++ '_' :: r = l' ++ '_' :: r') :
    l = l' ∧ r = r' := by
  induction l generalizing l' with
  | nil =>
    cases l' with
    | nil => exact ⟨rfl, (List.cons.inj heq).2⟩
    | cons c l' => exact absurd (List.mem_cons.mpr (.inl (List.cons.inj heq).1)) h'
  | cons c l ih =>
    cases l' with
    | nil => exact absurd (List.mem_cons.mpr (.inl (List.cons.inj heq).1.symm)) h
    | cons c' l' =>
      obtain ⟨rfl, hrest⟩ := List.cons.inj heq
      obtain ⟨rfl, rfl⟩ := ih (List.not_mem_of_not_mem_cons h) (List.not_mem_of_not_mem_cons h') hrest
      exact ⟨rfl, rfl⟩

theorem not_overAlphabet_makeAllowanceKey (owner spender : Address) :
    overAlphabet (makeAllowanceKey owner spender) = false := by
  rw [Bool.eq_false_iff]
  intro hover
  refine Base58.underscore_not_mem hover ?_
  simp [makeAllowanceKey]

theorem plain_makeAllowanceKey {owner spender : Address} (howner : overAlphabet owner = true)
    (hspender : overAlphabet spender = true) : Plain (makeAllowanceKey owner spender) := by
  have howner' : '\x00' ∉ owner.toList := plain_of_overAlphabet howner
  have hspender' : '\x00' ∉ spender.toList := plain_of_overAlphabet hspender
  simp [Plain, makeAllowanceKey, howner', hspender']

theorem makeAllowanceKey_inj {owner spender owner' spender' : Address} (howner : overAlphabet owner = true)
    (howner' : overAlphabet owner' = true) (h : makeAllowanceKey owner spender = makeAllowanceKey owner' spender') :
    owner = owner' ∧ spender = spender' := by
  have hlists := congrArg String.toList h
  simp only [makeAllowanceKey, String.toList_append, List.append_assoc, List.append_cancel_left_eq] at hlists
  change owner.toList ++ '_' :: ("to_".toList ++ spender.toList) =
    owner'.toList ++ '_' :: ("to_".toList ++ spender'.toList) at hlists
  obtain ⟨hfirst, hrest⟩ := append_cons_inj (Base58.underscore_not_mem howner) (Base58.underscore_not_mem howner')
    hlists
  have hsecond : spender.toList = spender'.toList := List.append_cancel_left hrest
  exact ⟨String.toList_inj.mp hfirst, String.toList_inj.mp hsecond⟩

/-! ### What a call does -/

abbrev Metadata := Storage GlobalAttribute

structure Transferred (source dest : Address) (n : ℤ) (s t : Metadata) : Prop where
  ne : source ≠ dest
  pos : 0 < n
  enough : n ≤ s.amountAt source
  moved : ∃ x y, Spells x (s.amountAt dest + n) ∧ Spells y (s.amountAt source - n) ∧
    t = (s.insert dest (.text x)).insert source (.text y)

/-- The addresses of a call. -/
def Call.addresses (m : Call) : List Address :=
  m.sender :: match m.input with
    | .transfer dest _ => [dest]
    | .transferFrom source dest _ => [source, dest]
    | .approve spender _ => [spender]
    | .invalid => []

/-- Every address of the call is over the alphabet of base 58. -/
def Call.Addressed (m : Call) : Prop := ∀ a ∈ m.addresses, overAlphabet a = true

instance (m : Call) : Decidable m.Addressed := inferInstanceAs (Decidable (∀ _ ∈ _, _))

/-- What the calls of `main` do to the metadata. -/
inductive Step : Call → Metadata → Metadata → Prop
  | transferSelf {sender value s} : Step ⟨sender, .transfer sender value⟩ s s
  | transfer {sender dest value n s t} (hsender : overAlphabet sender = true) (hdest : overAlphabet dest = true)
      (hvalue : Spells (toCString value) n) (hmoved : Transferred sender dest n s t) :
      Step ⟨sender, .transfer dest value⟩ s t
  | transferFromSelf {sender source value s} : Step ⟨sender, .transferFrom source source value⟩ s s
  | transferFrom {sender source dest value n s t z} (hsource : overAlphabet source = true)
      (hdest : overAlphabet dest = true) (hvalue : Spells (toCString value) n) (hmoved : Transferred source dest n s t)
      (hallowed : n ≤ s.amountAt (makeAllowanceKey source sender))
      (hz : Spells z (s.amountAt (makeAllowanceKey source sender) - n)) :
      Step ⟨sender, .transferFrom source dest value⟩ s (t.insert (makeAllowanceKey source sender) (.text z))
  | approve {sender spender value n s} (hsender : overAlphabet sender = true) (hvalue : Spells (toCString value) n)
      (hpos : 0 < n) : Step ⟨sender, .approve spender value⟩ s
        (s.insert (makeAllowanceKey sender spender) (.text (toCString value)))

variable {h : Host} {s t : ContractBasedToken} {m : Call} {x value : String}

variable {key : String}

theorem storage_of_store {v : Value GlobalAttribute} (hkey : Plain key) (hstore : store h key v s = some t) :
    t.storage = s.storage.insert key v := by
  simp only [store, Option.bind_eq_bind, bind_eq_some_iff, Option.pure_def, Option.some.injEq] at hstore
  obtain ⟨storage, hstorage, rfl⟩ := hstore
  rw [← toCString_of_plain hkey]
  exact eq_of_store hstorage

theorem checkValue_spells {u : Unit} (hvalue : checkValue value = some u) : ∃ n, Spells value n ∧ 0 < n := by
  obtain ⟨-, hvalue⟩ := of_guard hvalue
  obtain ⟨sign, hsign, hvalue⟩ := bind_eq_some_iff.mp hvalue
  have hpos : sign > 0 := by
    by_contra hneg
    simp [guard, hneg] at hvalue
  obtain ⟨n, zero, hn, hzero, hlt, -⟩ := int64Compare_spells hsign
  have hzero' : Spells "0" 0 := by decide
  obtain rfl := hzero.unique hzero'
  exact ⟨n, hn, hlt.mp hpos⟩

theorem amountAt_of_spells {n : ℤ} {storage : Metadata} (hload : storage.lookup key = some (.text x))
    (hx : Spells x n) : storage.amountAt key = n := by
  rw [amountAt, hload]
  exact hx.amount_eq

theorem lookup_of_loadText (hkey : Plain key) (hload : loadText key s = some x) :
    s.storage.lookup key = some (.text x) := by
  obtain ⟨v, hv, htext⟩ := bind_eq_some_iff.mp hload
  rw [← load_of_plain hkey, hv, Value.text?_eq_some.mp htext]

theorem received_spells {n : ℤ} {storage : Metadata} (hkey : Plain key) (hvalue : Spells value n)
    (hreceived : received value (storage.load key) = some x) : Spells x (storage.amountAt key + n) := by
  rw [load_of_plain hkey] at hreceived
  cases hload : storage.lookup key with
  | none =>
    rw [hload] at hreceived
    cases hreceived
    rwa [amountAt, hload, Option.elim_none, zero_add]
  | some old =>
    rw [hload] at hreceived
    cases old with
    | json record => cases hreceived
    | text old =>
      obtain ⟨k, n', hk, hn', hsum⟩ := int64Add_spells hreceived
      obtain rfl := hvalue.unique hn'
      rwa [amountAt_of_spells hload hk]

theorem le_of_compare {n k : ℤ} (hkey : Plain key) (hload : loadText key s = some x) (hvalue : Spells value n)
    (hcompare : int64Compare x value = some k) (hk : k ≥ 0) : n ≤ s.storage.amountAt key := by
  obtain ⟨m, n', hm, hn', -, hle, -⟩ := int64Compare_spells hcompare
  obtain rfl := hvalue.unique hn'
  rw [amountAt_of_spells (lookup_of_loadText hkey hload) hm]
  exact hle.mp hk

theorem sub_spells {n : ℤ} {y key : String} (hkey : Plain key) (hload : loadText key s = some x)
    (hvalue : Spells value n) (hsub : int64Sub x value = some y) : Spells y (s.storage.amountAt key - n) := by
  obtain ⟨m, n', hm, hn', hdiff⟩ := int64Sub_spells hsub
  obtain rfl := hvalue.unique hn'
  rwa [amountAt_of_spells (lookup_of_loadText hkey hload) hm]

theorem step_of_approve {sender spender : Address} (hsender : overAlphabet sender = true)
    (hspender : overAlphabet spender = true) (happrove : approve h sender spender (toCString value) s = some t) :
    Step ⟨sender, .approve spender value⟩ s.storage t.storage := by
  obtain ⟨-, happrove⟩ := of_guard happrove
  obtain ⟨_, hvalue, happrove⟩ := bind_eq_some_iff.mp happrove
  obtain ⟨s', hstore, happrove⟩ := bind_eq_some_iff.mp happrove
  cases happrove
  obtain ⟨n, hn, hpos⟩ := checkValue_spells hvalue
  change Step _ _ s'.storage
  rw [storage_of_store (plain_makeAllowanceKey hsender hspender) hstore]
  exact .approve hsender hn hpos

theorem step_of_transfer {sender dest : Address} (hsender : overAlphabet sender = true)
    (hdest : overAlphabet dest = true) (hrun : transfer h sender dest (toCString value) s = some t) :
    Step ⟨sender, .transfer dest value⟩ s.storage t.storage := by
  have hsender' := plain_of_overAlphabet hsender
  have hdest' := plain_of_overAlphabet hdest
  obtain ⟨-, hrun⟩ := of_guard hrun
  obtain ⟨_, hvalue, hrun⟩ := bind_eq_some_iff.mp hrun
  obtain ⟨n, hn, hpos⟩ := checkValue_spells hvalue
  split at hrun
  · rename_i hself
    subst hself
    cases hrun
    exact .transferSelf
  · rename_i hself
    obtain ⟨x, hx, hrun⟩ := bind_eq_some_iff.mp hrun
    obtain ⟨k, hk, hrun⟩ := bind_eq_some_iff.mp hrun
    obtain ⟨hnonneg, hrun⟩ := of_guard hrun
    obtain ⟨y, hy, hrun⟩ := bind_eq_some_iff.mp hrun
    obtain ⟨s₁, hs₁, hrun⟩ := bind_eq_some_iff.mp hrun
    obtain ⟨z, hz, hrun⟩ := bind_eq_some_iff.mp hrun
    obtain ⟨s₂, hs₂, hrun⟩ := bind_eq_some_iff.mp hrun
    cases hrun
    refine .transfer hsender hdest hn ⟨hself, hpos, le_of_compare hsender' hx hn hk hnonneg, y, z,
      received_spells hdest' hn hy, sub_spells hsender' hx hn hz, ?_⟩
    change s₂.storage = _
    rw [storage_of_store hsender' hs₂, storage_of_store hdest' hs₁]

theorem step_of_transferFrom {sender source dest : Address} (hsender : overAlphabet sender = true)
    (hsource : overAlphabet source = true) (hdest : overAlphabet dest = true)
    (hrun : transferFrom h sender source dest (toCString value) s = some t) :
    Step ⟨sender, .transferFrom source dest value⟩ s.storage t.storage := by
  have hsource' := plain_of_overAlphabet hsource
  have hdest' := plain_of_overAlphabet hdest
  have hkey := plain_makeAllowanceKey hsource hsender
  obtain ⟨-, hrun⟩ := of_guard hrun
  obtain ⟨-, hrun⟩ := of_guard hrun
  obtain ⟨_, hvalue, hrun⟩ := bind_eq_some_iff.mp hrun
  obtain ⟨n, hn, hpos⟩ := checkValue_spells hvalue
  split at hrun
  · rename_i hself
    subst hself
    cases hrun
    exact .transferFromSelf
  · rename_i hself
    obtain ⟨x, hx, hrun⟩ := bind_eq_some_iff.mp hrun
    obtain ⟨k, hk, hrun⟩ := bind_eq_some_iff.mp hrun
    obtain ⟨hnonneg, hrun⟩ := of_guard hrun
    obtain ⟨a, hallowance, hrun⟩ := bind_eq_some_iff.mp hrun
    obtain ⟨-, hallowance⟩ := of_guard hallowance
    obtain ⟨-, ha⟩ := of_guard hallowance
    obtain ⟨k', hk', hrun⟩ := bind_eq_some_iff.mp hrun
    obtain ⟨hnonneg', hrun⟩ := of_guard hrun
    obtain ⟨y, hy, hrun⟩ := bind_eq_some_iff.mp hrun
    obtain ⟨s₁, hs₁, hrun⟩ := bind_eq_some_iff.mp hrun
    obtain ⟨z, hz, hrun⟩ := bind_eq_some_iff.mp hrun
    obtain ⟨s₂, hs₂, hrun⟩ := bind_eq_some_iff.mp hrun
    obtain ⟨b, hb, hrun⟩ := bind_eq_some_iff.mp hrun
    obtain ⟨s₃, hs₃, hrun⟩ := bind_eq_some_iff.mp hrun
    cases hrun
    change Step _ _ s₃.storage
    rw [storage_of_store hkey hs₃]
    refine .transferFrom hsource hdest hn ⟨hself, hpos, le_of_compare hsource' hx hn hk hnonneg, y, z,
      received_spells hdest' hn hy, sub_spells hsource' hx hn hz, ?_⟩ (le_of_compare hkey ha hn hk' hnonneg')
      (sub_spells hkey ha hn hb)
    rw [storage_of_store hsource' hs₂, storage_of_store hdest' hs₁]

theorem step_of_main (haddressed : m.Addressed) (hmain : main h s m = some t) : Step m s.storage t.storage := by
  obtain ⟨sender, input⟩ := m
  obtain ⟨hsender, hothers⟩ := List.forall_mem_cons.mp haddressed
  cases input with
  | transfer dest value => exact step_of_transfer hsender (hothers dest (by simp)) hmain
  | transferFrom source dest value =>
    exact step_of_transferFrom hsender (hothers source (by simp)) (hothers dest (by simp)) hmain
  | approve spender value => exact step_of_approve hsender (hothers spender (by simp)) hmain
  | invalid => cases hmain

/-! ### Balances -/

section Balances
variable {source dest : Address} {n : ℤ} {before after : Metadata}

/-- Every balance is an amount that is not negative. -/
def Balanced (s : Metadata) : Prop :=
  ∀ a, overAlphabet a = true → ∀ v, s.lookup a = some v → ∃ value n, v = .text value ∧ Spells value n ∧ 0 ≤ n

theorem Balanced.insert (hs : Balanced before)
    (hkey : overAlphabet key = true → ∃ n, Spells value n ∧ 0 ≤ n) : Balanced (before.insert key (.text value)) := by
  intro a ha v hv
  rcases Records.lookup_insert_cases hv with ⟨rfl, rfl⟩ | ⟨-, hold⟩
  · obtain ⟨n, hn, hnonneg⟩ := hkey ha
    exact ⟨value, n, rfl, hn, hnonneg⟩
  · exact hs a ha v hold

theorem Transferred.amountAt_of_not (hmoved : Transferred source dest n before after)
    (hsource : overAlphabet source = true) (hdest : overAlphabet dest = true)
    (hkey : overAlphabet key = false) : after.amountAt key = before.amountAt key := by
  have hne : ∀ {a : Address}, overAlphabet a = true → key ≠ a := by
    rintro a ha rfl
    rw [ha] at hkey
    cases hkey
  obtain ⟨x, y, -, -, rfl⟩ := hmoved.moved
  rw [amountAt_insert_ne (hne hsource), amountAt_insert_ne (hne hdest)]

end Balances

/-! ### Allowances -/

/-- What a call moves out of an account by the allowance of a spender. -/
def Call.moved (owner spender : Address) (m : Call) : ℤ :=
  match m.input with
  | .transferFrom source dest value => if source = owner ∧ m.sender = spender ∧ source ≠ dest then
      amount (toCString value) else 0
  | _ => 0

/-- What the owner of an account approves for a spender in a call. -/
def Call.approved (owner spender : Address) (m : Call) : ℤ :=
  match m.input with
  | .approve spender' value => if m.sender = owner ∧ spender' = spender then amount (toCString value) else 0
  | _ => 0

/-- What has been moved and what is still allowed come to no more than what was approved. -/
structure Within (owner spender : Address) (moved approved : ℤ) (s : Metadata) : Prop where
  nonneg : 0 ≤ s.amountAt (makeAllowanceKey owner spender)
  within : moved + s.amountAt (makeAllowanceKey owner spender) ≤ approved

variable {before after : Metadata}

theorem Step.within {owner spender : Address} {moved approved : ℤ} (howner : overAlphabet owner = true)
    (hstep : Step m before after) (hs : Within owner spender moved approved before) :
    Within owner spender (moved + m.moved owner spender) (approved + m.approved owner spender) after := by
  obtain ⟨hnonneg, hwithin⟩ := hs
  cases hstep with
  | transferSelf => exact ⟨hnonneg, by simpa [Call.moved, Call.approved] using hwithin⟩
  | transfer hsender hdest hvalue hmoved =>
    have hsame := hmoved.amountAt_of_not hsender hdest (not_overAlphabet_makeAllowanceKey owner spender)
    exact ⟨by rwa [hsame], by simpa [Call.moved, Call.approved, hsame] using hwithin⟩
  | transferFromSelf => exact ⟨hnonneg, by simpa [Call.moved, Call.approved] using hwithin⟩
  | @transferFrom sender source dest value n _ t z hsource hdest hvalue hmoved hallowed hz =>
    have hsame := hmoved.amountAt_of_not hsource hdest
      (not_overAlphabet_makeAllowanceKey owner spender)
    have happroved : Call.approved owner spender ⟨sender, .transferFrom source dest value⟩ = 0 := rfl
    rw [happroved, add_zero]
    by_cases hpair : source = owner ∧ sender = spender
    · obtain ⟨rfl, rfl⟩ := hpair
      have hcall : Call.moved source sender ⟨sender, .transferFrom source dest value⟩ = n := by
        rw [← hvalue.amount_eq]
        exact if_pos ⟨rfl, rfl, hmoved.ne⟩
      constructor
      · rw [amountAt_insert, Value.amount, hz.amount_eq]
        omega
      · rw [amountAt_insert, Value.amount, hz.amount_eq, hcall]
        omega
    · have hkey : makeAllowanceKey owner spender ≠ makeAllowanceKey source sender := by
        intro heq
        obtain ⟨rfl, rfl⟩ := makeAllowanceKey_inj howner hsource heq
        exact hpair ⟨rfl, rfl⟩
      have hcall : Call.moved owner spender ⟨sender, .transferFrom source dest value⟩ = 0 :=
        if_neg fun hthree => hpair ⟨hthree.1, hthree.2.1⟩
      rw [hcall, add_zero]
      constructor
      · rwa [amountAt_insert_ne hkey, hsame]
      · rwa [amountAt_insert_ne hkey, hsame]
  | @approve sender spender' value n _ hsender hvalue hpos =>
    have hcall : Call.moved owner spender ⟨sender, .approve spender' value⟩ = 0 := rfl
    rw [hcall, add_zero]
    by_cases hpair : sender = owner ∧ spender' = spender
    · obtain ⟨rfl, rfl⟩ := hpair
      have happroved : Call.approved sender spender' ⟨sender, .approve spender' value⟩ = n := by
        rw [← hvalue.amount_eq]
        exact if_pos ⟨rfl, rfl⟩
      -- The new allowance takes the place of the old one, of which nothing more can be moved.
      constructor
      · rw [amountAt_insert, Value.amount, hvalue.amount_eq]
        omega
      · rw [amountAt_insert, Value.amount, hvalue.amount_eq, happroved]
        omega
    · have hkey : makeAllowanceKey owner spender ≠ makeAllowanceKey sender spender' := by
        intro heq
        obtain ⟨rfl, rfl⟩ := makeAllowanceKey_inj howner hsender heq
        exact hpair ⟨rfl, rfl⟩
      have happroved : Call.approved owner spender ⟨sender, .approve spender' value⟩ = 0 := if_neg hpair
      rw [happroved, add_zero]
      constructor
      · rwa [amountAt_insert_ne hkey]
      · rwa [amountAt_insert_ne hkey]

/-! ### Histories -/

variable {params : Params}

/-- Every text over the alphabet is an address, and records are short. -/
def plainHost : Host where
  addressCheck := overAlphabet
  jsonSize _ := 100

end ContractBasedToken
end OpenSesame
