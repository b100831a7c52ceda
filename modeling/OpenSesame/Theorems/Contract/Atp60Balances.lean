import OpenSesame.Theorems.Contract.Atp60Accounts

/-! # What the methods of the ATP60 contract do to its balances

For every method what it books; from that, what holds after any calls. -/

namespace OpenSesame
open Text StateOption Option
open ScriptUtils (toCString toCString_of_plain)

namespace Atp60
variable {h : Host} {c : Context} {s t : Storage Record} {skuId val : String} {trnId : Option String}

/-! ### Methods that move amounts -/

variable {u : Unit}

theorem booked_transferOf {source dest : Address} (hs : Accounts s) (hsku : clean skuId = true)
    (htrnId : ∀ x, trnId = some x → clean x = true) (ha : clean source = true) (hb : clean dest = true)
    (hrun : transferOf h c source skuId trnId dest val s = some (u, t)) :
    ∃ r l, Booked skuId r l s t ∧ Supplied skuId l := by
  obtain ⟨-, hrun⟩ := assert_bind hrun
  obtain ⟨-, hrun⟩ := assert_bind hrun
  obtain ⟨-, hrun⟩ := assert_bind hrun
  obtain ⟨hpositive, hrun⟩ := assert_bind hrun
  obtain ⟨trn, s₁, hsub, hadd⟩ := of_bind hrun
  obtain ⟨n, hn, hpos⟩ := spells_of_checkPositive hpositive
  obtain ⟨⟨r, hr⟩, htrn, hdown⟩ := checkSubBalance_changed hs hsku htrnId hn hpos ha hsub
  have hup := checkAddBalance_changed hsku htrn hb hn hpos.le hadd
  have hdone := (hdown.trans hup).done hr
  refine ⟨r, _, ⟨hdone, hsku, ?_, ?_, ?_, ?_⟩, ?_⟩
  · simp [hsku, htrn, ha, hb]
  · have hzero : moved (holders skuId) ([(bletrnKey skuId trn source, -n), (bleKey skuId source, -n)] ++
        [(bleKey skuId dest, n), (bletrnKey skuId trn dest, n)]) = 0 := by
      simp [hsku, htrn, ha, hb]
    rw [hzero, add_zero]
    exact hs.supply skuId r hr
  · intro a' ha'
    simp [hsku, htrn, ha, hb, ha']
  · exact fun trn' htrn' => hs.default skuId r trn' hr htrn'
  · intro trn' htrn'
    simp [hsku, htrn, ha, hb, htrn']
    split_ifs
    · omega
    · rfl

theorem booked_assignToTranche {toTrnId : Option String} (hs : Accounts s) (hsku : clean skuId = true)
    (htrnId : ∀ x, toTrnId = some x → clean x = true) (ha : clean c.txSender = true)
    (hrun : assignToTranche h c skuId toTrnId val s = some (u, t)) : ∃ r l, Booked skuId r l s t := by
  obtain ⟨-, hrun⟩ := assert_bind hrun
  obtain ⟨-, hrun⟩ := assert_bind hrun
  obtain ⟨hpositive, hrun⟩ := assert_bind hrun
  have hrun := seller_bind hrun
  obtain ⟨r, hr, hrun⟩ := loadSku_clean hsku hrun
  obtain ⟨-, hrun⟩ := assert_bind hrun
  obtain ⟨-, hrun⟩ := assert_bind hrun
  obtain ⟨_, -, hrun⟩ := checkExist_bind hrun
  obtain ⟨trn, s₄, hsub, hrun⟩ := of_bind hrun
  obtain ⟨toTrn, hto, hadd⟩ := call_bind hrun
  obtain ⟨n, hn, hpos⟩ := spells_of_checkPositive hpositive
  obtain ⟨-, htrn, hdown⟩ := checkSubBalance_changed hs hsku (fun x hx => hs.default skuId r x hr hx) hn hpos ha hsub
  have hto' := htrnId toTrn hto
  have hup := checkAddBalance_changed hsku hto' ha hn hpos.le hadd
  have hdone := (hdown.trans hup).done hr
  refine ⟨r, _, ⟨hdone, hsku, ?_, ?_, ?_, ?_⟩⟩
  · simp [hsku, ha, htrn, hto']
  · have hzero : moved (holders skuId) ([(bletrnKey skuId trn c.txSender, -n), (bleKey skuId c.txSender, -n)] ++
        [(bleKey skuId c.txSender, n), (bletrnKey skuId toTrn c.txSender, n)]) = 0 := by
      simp [hsku, ha, htrn, hto']
    rw [hzero, add_zero]
    exact hs.supply skuId r hr
  · intro a' ha'
    simp [hsku, ha, htrn, hto', ha']
  · exact fun trn' htrn' => hs.default skuId r trn' hr htrn'

theorem done_store {r : Sku} (hsku : clean skuId = true)
    (hrun : store h (skuKey skuId) (.json (.sku r)) s = some (u, t)) : Done skuId r [] s t := by
  rw [store_eq_some hrun, toCString_skuKey, toCString_of_plain (plain_of_clean hsku)]
  exact done_insert skuId r

theorem booked_destroy {a : Address} (hs : Accounts s) (hsku : clean skuId = true)
    (htrnId : ∀ x, trnId = some x → clean x = true) (hsender : clean c.txSender = true)
    (hrun : destroy h c a skuId trnId val s = some (u, t)) : ∃ r l, Booked skuId r l s t := by
  obtain ⟨-, hrun⟩ := assert_bind hrun
  obtain ⟨-, hrun⟩ := assert_bind hrun
  obtain ⟨hpositive, hrun⟩ := assert_bind hrun
  have hrun := seller_bind hrun
  obtain ⟨hown, hrun⟩ := assert_bind hrun
  obtain ⟨_, -, hrun⟩ := checkExist_bind hrun
  obtain ⟨trn₀, htrn₀, hrun⟩ := checkTranche_bind htrnId hrun
  obtain ⟨_, -, hrun⟩ := checkExist_bind hrun
  obtain ⟨trn, s₅, hsub, hrun⟩ := of_bind hrun
  obtain ⟨r, hr, hrun⟩ := loadSku_clean hsku hrun
  obtain ⟨rest, hrest, hstore⟩ := call_bind hrun
  obtain ⟨n, hn, hpos⟩ := spells_of_checkPositive hpositive
  have ha : clean a = true := hown ▸ hsender
  have hgiven : ∀ x, some trn₀ = some x → clean x = true := by
    rintro x ⟨⟩
    exact htrn₀
  obtain ⟨-, htrn, hdown⟩ := checkSubBalance_changed hs hsku hgiven hn hpos ha hsub
  have hr₀ : s.lookup (skuKey skuId) = some (.json (.sku r)) := (hdown.sku _ (isSku_skuKey skuId)).symm.trans hr
  have hdone : Done skuId { r with totalSupply := rest }
      ([(bletrnKey skuId trn a, -n), (bleKey skuId a, -n)] ++ []) s t :=
    hdown.trans_done (done_store hsku hstore)
  refine ⟨_, _, ⟨hdone, hsku, ?_, ?_, ?_, ?_⟩⟩
  · simp [hsku, ha, htrn]
  · obtain ⟨m, n', hm, hn', hdiff⟩ := int64Sub_spells hrest
    obtain rfl := hn.unique hn'
    obtain rfl := hm.unique (hs.supply skuId r hr₀)
    have hmoved : moved (holders skuId) ([(bletrnKey skuId trn a, -n), (bleKey skuId a, -n)] ++ []) = -n := by
      simp [hsku, ha, htrn]
    rw [hmoved, ← sub_eq_add_neg]
    exact hdiff
  · intro a' ha'
    simp [hsku, ha, htrn, ha']
  · exact fun trn' htrn' => hs.default skuId r trn' hr₀ htrn'

theorem booked_additionalIssuance {supply : String} (hs : Accounts s) (hsku : clean skuId = true)
    (htrnId : ∀ x, trnId = some x → clean x = true) (ha : clean c.txSender = true)
    (hrun : additionalIssuance h c skuId trnId supply s = some (u, t)) :
    ∃ r l, Booked skuId r l s t ∧ Supplied skuId l := by
  obtain ⟨-, hrun⟩ := assert_bind hrun
  obtain ⟨hpositive, hrun⟩ := assert_bind hrun
  have hrun := seller_bind hrun
  obtain ⟨r, hr, hrun⟩ := loadSku_clean hsku hrun
  obtain ⟨sum, hsum, hrun⟩ := call_bind hrun
  obtain ⟨_, s₄, hstore, hrun⟩ := of_bind hrun
  obtain ⟨trn, htrn, hrun⟩ := checkTranche_bind htrnId hrun
  obtain ⟨_, -, hrun⟩ := checkExist_bind hrun
  obtain ⟨_, s₇, hspy, hrun⟩ := of_bind hrun
  obtain ⟨_, s₈, hpages, hrun⟩ := of_bind hrun
  obtain ⟨_, s₉, hble, hrun⟩ := of_bind hrun
  obtain ⟨_, s₁₀, hbletrn, hrun⟩ := of_bind hrun
  obtain ⟨_, s₁₁, hpages', hrun⟩ := of_bind hrun
  cases hrun
  obtain ⟨n, hn, hpos⟩ := spells_of_checkPositive hpositive
  have hskus : Done skuId { r with totalSupply := sum } [] s s₄ := done_store hsku hstore
  have hdone := ((((hskus.trans_changed (changed_addVal (amountKey_spyKey hsku htrn) hn hpos.le hspy)).trans_changed
    (Elsewhere.addListed (by decide) (by decide) hpages)).trans_changed
    (changed_addVal (amountKey_bleKey hsku ha) hn hpos.le hble)).trans_changed
    (changed_addVal (amountKey_bletrnKey hsku htrn ha) hn hpos.le hbletrn)).trans_changed
    (Elsewhere.addListed (by decide) (by decide) hpages')
  refine ⟨_, _, ⟨hdone, hsku, ?_, ?_, ?_, ?_⟩, ?_⟩
  · simp [hsku, ha, htrn]
  · obtain ⟨m, n', hm, hn', htotal⟩ := int64Add_spells hsum
    obtain rfl := hn.unique hn'
    obtain rfl := hm.unique (hs.supply skuId r hr)
    simpa [hsku, ha, htrn] using htotal
  · intro a' ha'
    simp [hsku, ha, htrn, ha']
  · exact fun trn' htrn' => hs.default skuId r trn' hr htrn'
  · intro trn' htrn'
    simp [hsku, ha, htrn, htrn']

variable {key : String}

theorem changed_store {n : ℤ} (hkey : AmountKey key) (hval : Spells val n) (hn : 0 ≤ n) (hzero : s.amountAt key = 0)
    (hrun : store h key (.text val) s = some (u, t)) : Changed [(key, n)] s t := by
  rw [store_eq_some hrun, toCString_of_plain hkey.plain]
  refine changed_insert hkey ?_ fun _ => ?_
  · rwa [hzero, zero_add]
  · rwa [hzero, zero_add]

theorem booked_issue {p : Issue} (hs : Accounts s) (hsku : clean p.skuId = true)
    (htrnId : ∀ x, p.trnId = some x → clean x = true) (ha : clean c.txSender = true) (hrun : issue h c p s = some (u, t)) :
    ∃ r l, Booked p.skuId r l s t ∧ Supplied p.skuId l := by
  obtain ⟨trn, htrn, hrun⟩ := checkTranche_bind htrnId hrun
  obtain ⟨hcheck, hrun⟩ := assert_bind hrun
  have hrun := seller_bind hrun
  obtain ⟨_, s₃, hnot, hrun⟩ := of_bind hrun
  obtain ⟨hnone, rfl⟩ := checkNotExist_eq_some hnot
  rw [Storage.load, ← skuKey, toCString_skuKey, toCString_of_plain (plain_of_clean hsku)] at hnone
  obtain ⟨_, s₄, hspu, hrun⟩ := of_bind hrun
  obtain rfl := eq_of_checkSpu hspu
  obtain ⟨_, -, hrun⟩ := checkExist_bind hrun
  obtain ⟨_, -, hrun⟩ := checkExist_bind hrun
  obtain ⟨_, s₇, hstore, hrun⟩ := of_bind hrun
  obtain ⟨_, s₈, hspy, hrun⟩ := of_bind hrun
  obtain ⟨_, s₉, hpages₁, hrun⟩ := of_bind hrun
  obtain ⟨_, s₁₀, hpages₂, hrun⟩ := of_bind hrun
  obtain ⟨_, s₁₁, hpages₃, hrun⟩ := of_bind hrun
  obtain ⟨_, s₁₂, hpages₄, hrun⟩ := of_bind hrun
  obtain ⟨_, s₁₃, hble, hrun⟩ := of_bind hrun
  obtain ⟨_, s₁₄, hbletrn, hrun⟩ := of_bind hrun
  obtain ⟨_, s₁₅, hpages₅, hrun⟩ := of_bind hrun
  cases hrun
  obtain ⟨n, hn, hpos⟩ : ∃ n, Spells p.supply n ∧ 0 < n := by
    refine spells_of_checkPositive ?_
    simp only [Issue.check, Bool.and_eq_true] at hcheck
    exact hcheck.1.1.1.1.1.1.1.1.2
  have hzero : ∀ k, concerns p.skuId k = true → s.amountAt k = 0 := fun k hk => by
    rw [Storage.amountAt, hs.absent p.skuId hsku hnone k hk, elim_none]
  have hskus : Done p.skuId
      { defaultTrancheId := if p.isDftTrn = some true then some trn else none
        totalSupply := p.supply, authorizers := [] } [] s s₇ := done_store hsku hstore
  have hspyChanged : Changed [(spyKey p.skuId trn, n)] s₇ s₈ := by
    refine changed_store (amountKey_spyKey hsku htrn) hn hpos.le ?_ hspy
    rw [hskus.amount _ (amountKey_spyKey hsku htrn).amount, moved_nil, add_zero]
    exact hzero _ (concerns_spyKey hsku htrn)
  have hlists : Aside s₈ s₁₂ :=
    (((Elsewhere.addListed (by decide) (by decide) hpages₁).trans
      (Elsewhere.addListed (by decide) (by decide) hpages₂)).trans
      (Elsewhere.addListed (by decide) (by decide) hpages₃)).trans
      (Elsewhere.spu hpages₄)
  have hsupplied := (hskus.trans_changed hspyChanged).trans_changed hlists
  have hbleChanged : Changed [(bleKey p.skuId c.txSender, n)] s₁₂ s₁₃ := by
    refine changed_store (amountKey_bleKey hsku ha) hn hpos.le ?_ hble
    rw [hsupplied.amount _ (amountKey_bleKey hsku ha).amount, hzero _ (concerns_bleKey hsku ha)]
    simp [spyKey_beq_bleKey hsku htrn hsku ha]
  have hheld := hsupplied.trans_changed hbleChanged
  have hbletrnChanged : Changed [(bletrnKey p.skuId trn c.txSender, n)] s₁₃ s₁₄ := by
    refine changed_store (amountKey_bletrnKey hsku htrn ha) hn hpos.le ?_ hbletrn
    have hspyNe : (spyKey p.skuId trn == bletrnKey p.skuId trn c.txSender) = false := by
      rw [BEq.comm, bletrnKey_beq_spyKey hsku htrn ha hsku htrn]
    have hbleNe : (bleKey p.skuId c.txSender == bletrnKey p.skuId trn c.txSender) = false := by
      rw [BEq.comm, bletrnKey_beq_bleKey hsku htrn ha hsku ha]
    rw [hheld.amount _ (amountKey_bletrnKey hsku htrn ha).amount, hzero _ (concerns_bletrnKey hsku htrn ha)]
    simp [hspyNe, hbleNe]
  have hdone := (hheld.trans_changed hbletrnChanged).trans_changed
    (Elsewhere.addListed (by decide) (by decide) hpages₅)
  refine ⟨_, _, ⟨hdone, hsku, ?_, ?_, ?_, ?_⟩, ?_⟩
  · simp [hsku, ha, htrn]
  · have htotal : s.total (holders p.skuId) = 0 :=
      total_eq_zero fun k hk => hs.absent p.skuId hsku hnone k (concerns_of_holders hk)
    simpa [htotal, hsku, ha, htrn] using hn
  · intro a' ha'
    simp [hsku, ha, htrn, ha']
  · intro trn' hdefault
    split_ifs at hdefault
    cases hdefault
    exact htrn
  · intro trn' htrn'
    simp [hsku, ha, htrn, htrn']

theorem booked_restore {r : Sku} (r' : Sku) (hs : Accounts s)
    (hr : s.lookup (skuKey (toCString skuId)) = some (.json (.sku r))) (hsupply : r'.totalSupply = r.totalSupply)
    (hdefault : r'.defaultTrancheId = r.defaultTrancheId)
    (hrun : store h (skuKey skuId) (.json (.sku r')) s = some (u, t)) :
    ∃ r l, Booked (toCString skuId) r l s t ∧ Supplied (toCString skuId) l := by
  have hdone : Done (toCString skuId) r' [] s t := by
    rw [store_eq_some hrun, toCString_skuKey]
    exact done_insert _ r'
  have hsku := hs.known _ r hr
  refine ⟨r', [], ⟨hdone, hsku, nofun, ?_, fun _ _ => rfl, ?_⟩, fun _ _ => rfl⟩
  · rw [hsupply, moved_nil, add_zero]
    exact hs.supply _ r hr
  · rw [hdefault]
    exact fun trn htrn => hs.default _ r trn hr htrn

theorem booked_setSku {p : SetSku} (hs : Accounts s) (hrun : setSku h c p s = some (u, t)) :
    ∃ r l, Booked (toCString p.skuId) r l s t ∧ Supplied (toCString p.skuId) l := by
  obtain ⟨-, hrun⟩ := assert_bind hrun
  have hrun := seller_bind hrun
  obtain ⟨r, hr, hstore⟩ := loadSku_bind hrun
  exact booked_restore _ hs hr rfl rfl hstore

theorem booked_setAuthorizers {autrs : List Address} (hs : Accounts s)
    (hrun : setAuthorizers h c skuId autrs s = some (u, t)) :
    ∃ r l, Booked (toCString skuId) r l s t ∧ Supplied (toCString skuId) l := by
  obtain ⟨-, hrun⟩ := assert_bind hrun
  obtain ⟨-, hrun⟩ := assert_bind hrun
  have hrun := seller_bind hrun
  obtain ⟨r, hr, hrun⟩ := loadSku_bind hrun
  obtain ⟨-, hstore⟩ := assert_bind hrun
  exact booked_restore { r with authorizers := autrs } hs hr rfl rfl hstore

/-! ### Methods that write elsewhere -/

section
open Elsewhere

theorem aside_setSellerOf {sender cpyFlNm cpyStNm cpyCat : String} :
    Elsewhere (setSellerOf h sender cpyFlNm cpyStNm cpyCat) := by
  repeat refine .bind asserts fun _ => ?_
  exact stores (by decide)

theorem aside_setSeller {cpyFlNm cpyStNm cpyCat : String} : Elsewhere (setSeller h c cpyFlNm cpyStNm cpyCat) :=
  .bySeller aside_setSellerOf

theorem aside_setDocument {id name url hashType hash : String} :
    Elsewhere (setDocument h c id name url hashType hash) := by
  repeat refine .bind asserts fun _ => ?_
  refine .bySeller ?_
  exact .bind (addPages (by decide) (by decide)) fun _ => .bind asserts fun _ => stored (by decide)

theorem aside_createSpu {id name type : String} : Elsewhere (createSpu h c id name type) := by
  repeat refine .bind asserts fun _ => ?_
  exact .bySeller (.bind notExist fun _ => stored (by decide))

theorem aside_setSpu {spuId name type : String} : Elsewhere (setSpu h spuId name type) := by
  repeat refine .bind asserts fun _ => ?_
  exact .bind exist fun _ => stored (by decide)

variable {des : Option String}

theorem aside_createTranche {id : String} : Elsewhere (createTranche h c id des) := by
  repeat refine .bind asserts fun _ => ?_
  exact .bySeller (.bind notExist fun _ => stored (by decide))

theorem aside_setSkusChoice {spuId : String} {choiceLength : ℕ} : Elsewhere (setSkusChoice h spuId choiceLength) := by
  repeat refine .bind asserts fun _ => ?_
  exact .bind exist fun _ => stored (by decide)

variable {acpId : String}

theorem aside_addAcceptanceToSku : Elsewhere (addAcceptanceToSku h c skuId acpId) := by
  repeat refine .bind asserts fun _ => ?_
  refine .bySeller ?_
  refine .bind exist fun _ => .bind exist fun _ => .bind (addListed (by decide) (by decide)) fun _ => ?_
  exact .bind asserts fun _ => asserts

theorem aside_delAcceptanceFromSku : Elsewhere (delAcceptanceFromSku h c skuId acpId) := by
  repeat refine .bind asserts fun _ => ?_
  refine .bySeller ?_
  refine .bind exist fun _ => ?_
  exact .bind (subPages (by decide) (by decide)) fun _ => asserts

theorem aside_authorizeSku : Elsewhere (authorizeSku h c skuId trnId) := by
  repeat refine .bind asserts fun _ => ?_
  refine .bind sku fun _ => .bind asserts fun _ => .bind tranche fun _ => ?_
  refine .bind exist fun _ => .bind (addListed (by decide) (by decide)) fun _ => ?_
  exact .bind asserts fun _ => .bind exist fun _ => stored (by decide)

theorem aside_setAcceptance {id pub flNm stNm cat period : String} {logo : Option String} :
    Elsewhere (setAcceptance h c id pub flNm stNm logo cat period) := by
  refine .bind asserts fun _ => .bind calls fun _ => .bind asserts fun _ => ?_
  refine .bind asserts fun _ => .bind asserts fun _ => .bind asserts fun _ => ?_
  refine .bind asserts fun _ => .bind asserts fun _ => ?_
  exact .bySeller (stored (by decide))

theorem aside_approve {spr : Address} : Elsewhere (approve h c spr skuId trnId val) := by
  repeat refine .bind asserts fun _ => ?_
  refine .bind sku fun _ => .bind tranche fun _ => ?_
  refine .bind exist fun _ => .bind loads fun _ => .bind calls fun _ => ?_
  exact .bind calls fun _ => .bind asserts fun _ => stored (by decide)

theorem aside_subVal : Elsewhere (subVal h false val key) := by
  refine .bind loads fun old => ?_
  split
  · exact .pure _
  · refine .bind calls fun _ => .bind calls fun _ => .bind calls fun _ => ?_
    refine .ite (.pure _) ?_
    rw [if_neg Bool.false_ne_true]
    exact .pure _

theorem aside_checkSubBalance {sender source : Address} {isDftTrn : Bool} :
    Elsewhere (checkSubBalance h sender source skuId trnId val false isDftTrn) := by
  refine .bind sku fun _ => .bind tranche fun _ => ?_
  refine .bind exist fun _ => .bind allowance fun _ => ?_
  refine .bind aside_subVal fun _ => .bind asserts fun _ => .bind ?_ fun _ => .pure _
  rw [subSku, if_neg Bool.false_ne_true]
  exact .pure _

theorem aside_requestRedemption {repnId acpId : String} :
    Elsewhere (requestRedemption h c repnId skuId trnId val acpId des) := by
  repeat refine .bind asserts fun _ => ?_
  refine .bind notExist fun _ => .bind exist fun _ => ?_
  exact .bind aside_checkSubBalance fun _ => stored (by decide)

theorem aside_loadRedemption : Elsewhere (loadRedemption key) := by
  refine .bind exist fun value => ?_
  split
  · exact .pure _
  · exact throws

theorem aside_loadAcceptance : Elsewhere (loadAcceptance acpId) := by
  refine .bind exist fun value => ?_
  split
  · exact .pure _
  · exact throws

variable {repnId : String} {apt : Address}

theorem aside_redeem : Elsewhere (redeem h c repnId apt) := by
  repeat refine .bind asserts fun _ => ?_
  refine .bind aside_loadRedemption fun _ => ?_
  refine .bind asserts fun _ => .bind aside_loadAcceptance fun _ => .bind asserts fun _ => ?_
  exact .bind notExist fun _ => stored (by decide)

theorem aside_checkExpired {pod : String} {stTm : Option Int64} : Elsewhere (checkExpired c pod stTm) := by
  refine .bind calls fun _ => .bind calls fun _ => .bind calls fun _ => ?_
  exact .bind calls fun _ => .bind calls fun _ => .bind calls fun _ => .pure _

theorem aside_confirmRedemption : Elsewhere (confirmRedemption h c repnId apt) := by
  repeat refine .bind asserts fun _ => ?_
  refine .bind aside_loadRedemption fun _ => ?_
  refine .bind asserts fun _ => .bind aside_loadAcceptance fun _ => ?_
  refine .bind aside_checkExpired fun _ => .bind asserts fun _ => ?_
  exact .bind notExist fun _ => stored (by decide)

theorem aside_applyDispute {rsn : String} {ctr : Address} : Elsewhere (applyDispute h c repnId apt rsn ctr) := by
  repeat refine .bind asserts fun _ => ?_
  refine .bySeller ?_
  refine .bind aside_loadRedemption fun _ => .bind asserts fun _ => ?_
  exact .bind notExist fun _ => stored (by decide)

theorem aside_setEvidence : Elsewhere (setEvidence h c repnId apt des) := by
  repeat refine .bind asserts fun _ => ?_
  refine .bind aside_loadRedemption fun _ => .bind aside_loadAcceptance fun _ => ?_
  refine .bySeller ?_
  exact .bind exist fun _ => stored (by decide)

theorem aside_handleDispute {sas : ℕ} : Elsewhere (handleDispute h c repnId apt sas des) := by
  repeat refine .bind asserts fun _ => ?_
  refine .bind aside_loadRedemption fun _ => ?_
  refine .bind exist fun value => ?_
  split
  · refine .bind asserts fun _ => .bind asserts fun _ => ?_
    exact .bind (stored (by decide)) fun _ => stored (by decide)
  · exact throws

end

/-! ### Calls -/

/-- The texts that become parts of the keys of amounts are clean. -/
def Input.clean : Input → Bool
  | .issue p => Atp60.clean p.skuId && p.trnId.all Atp60.clean
  | .additionalIssuance skuId trnId _ => Atp60.clean skuId && trnId.all Atp60.clean
  | .assignToTranche skuId toTrnId _ => Atp60.clean skuId && toTrnId.all Atp60.clean
  | .destroy _ skuId trnId _ => Atp60.clean skuId && trnId.all Atp60.clean
  | .transferFrom source skuId trnId dest _ =>
    Atp60.clean skuId && trnId.all Atp60.clean && Atp60.clean source && Atp60.clean dest
  | .transfer skuId trnId dest _ => Atp60.clean skuId && trnId.all Atp60.clean && Atp60.clean dest
  | _ => true

/-- And so are the addresses of those who call. -/
def Call.clean (m : Call) : Bool := Atp60.clean m.context.txSender && Atp60.clean m.context.msgSender && m.input.clean

/-- The methods after which the supplies of the tranches are as they should be. -/
def Input.keepsSupplies : Input → Bool
  | .assignToTranche .. => false
  | .destroy .. => false
  | _ => true

theorem clean_of_all {trnId : Option String} (hall : trnId.all clean = true) :
    ∀ x, trnId = some x → clean x = true := by
  rintro x rfl
  exact hall

theorem main_cases {input : Input} (hs : Accounts s) (htx : clean c.txSender = true) (hmsg : clean c.msgSender = true)
    (hclean : input.clean = true) (hrun : main h c input s = some (u, t)) :
    Aside s t ∨ ∃ sku r l, Booked sku r l s t ∧ (input.keepsSupplies = true → Supplied sku l) := by
  have hmoves : ∀ {sku : String}, (∃ r l, Booked sku r l s t ∧ Supplied sku l) →
      Aside s t ∨ ∃ sku r l, Booked sku r l s t ∧ (input.keepsSupplies = true → Supplied sku l) := by
    rintro sku ⟨r, l, hbooked, hsupplied⟩
    exact .inr ⟨sku, r, l, hbooked, fun _ => hsupplied⟩
  cases input with
  | setSeller flNm stNm cat => exact .inl (aside_setSeller hrun)
  | setDocument id name url hashType hash => exact .inl (aside_setDocument hrun)
  | createSpu id name type => exact .inl (aside_createSpu hrun)
  | setSpu spuId name type => exact .inl (aside_setSpu hrun)
  | issue p =>
    simp only [Input.clean, Bool.and_eq_true] at hclean
    exact hmoves (booked_issue (p := { p with supply := toCString p.supply, decimals := toCString p.decimals }) hs
      hclean.1 (clean_of_all hclean.2) htx hrun)
  | setSkusChoice spuId choiceLength => exact .inl (aside_setSkusChoice hrun)
  | setSku p => exact hmoves (booked_setSku hs hrun)
  | addAcceptanceToSku skuId acpId => exact .inl (aside_addAcceptanceToSku hrun)
  | delAcceptanceFromSku skuId acpId => exact .inl (aside_delAcceptanceFromSku hrun)
  | additionalIssuance skuId trnId supply =>
    simp only [Input.clean, Bool.and_eq_true] at hclean
    exact hmoves (booked_additionalIssuance hs hclean.1 (clean_of_all hclean.2) htx hrun)
  | assignToTranche skuId toTrnId val =>
    simp only [Input.clean, Bool.and_eq_true] at hclean
    obtain ⟨r, l, hbooked⟩ := booked_assignToTranche hs hclean.1 (clean_of_all hclean.2) htx hrun
    exact .inr ⟨skuId, r, l, hbooked, nofun⟩
  | setAuthorizers skuId autrs => exact hmoves (booked_setAuthorizers hs hrun)
  | authorizeSku skuId trnId => exact .inl (aside_authorizeSku hrun)
  | createTranche id des => exact .inl (aside_createTranche hrun)
  | destroy a skuId trnId val =>
    simp only [Input.clean, Bool.and_eq_true] at hclean
    obtain ⟨r, l, hbooked⟩ := booked_destroy hs hclean.1 (clean_of_all hclean.2) htx hrun
    exact .inr ⟨skuId, r, l, hbooked, nofun⟩
  | transferFrom source skuId trnId dest val =>
    simp only [Input.clean, Bool.and_eq_true] at hclean
    obtain ⟨⟨⟨hsku, htrn⟩, hsource⟩, hdest⟩ := hclean
    exact hmoves (booked_transferOf hs hsku (clean_of_all htrn) hsource hdest hrun)
  | transfer skuId trnId dest val =>
    simp only [Input.clean, Bool.and_eq_true] at hclean
    obtain ⟨⟨hsku, htrn⟩, hdest⟩ := hclean
    exact hmoves (booked_transferOf hs hsku (clean_of_all htrn) hmsg hdest hrun)
  | approve spr skuId trnId val => exact .inl (aside_approve hrun)
  | setAcceptance id pub flNm stNm logo cat period => exact .inl (aside_setAcceptance hrun)
  | requestRedemption repnId skuId trnId val acpId des => exact .inl (aside_requestRedemption hrun)
  | redeem repnId apt => exact .inl (aside_redeem hrun)
  | confirmRedemption repnId apt => exact .inl (aside_confirmRedemption hrun)
  | applyDispute repnId apt rsn ctr => exact .inl (aside_applyDispute hrun)
  | handleDispute repnId apt sas des => exact .inl (aside_handleDispute hrun)
  | setEvidence repnId apt des => exact .inl (aside_setEvidence hrun)
  | invalid => cases hrun

theorem accounts_step {m : Call} (hclean : m.clean = true) (hstep : step h s m = some t) (hs : Accounts s) :
    Accounts t ∧ (m.input.keepsSupplies = true → TrancheSupply s → TrancheSupply t) := by
  obtain ⟨⟨u, t'⟩, hrun, rfl⟩ := map_eq_some_iff.mp hstep
  simp only [Call.clean, Bool.and_eq_true] at hclean
  obtain ⟨⟨htx, hmsg⟩, hinput⟩ := hclean
  rcases main_cases hs htx hmsg hinput hrun with haside | ⟨sku, r, l, hbooked, hsupplied⟩
  · exact ⟨haside.accounts hs, fun _ => haside.trancheSupply⟩
  · exact ⟨hbooked.accounts hs, fun hkeeps hsupply => hbooked.trancheSupply hsupply (hsupplied hkeeps)⟩

theorem accounts_empty : Accounts (∅ : Storage Record) where
  sound _ _ _ hload := nomatch hload
  known _ _ hload := nomatch hload
  supply _ _ hload := nomatch hload
  tranches _ _ _ _ := rfl
  absent _ _ _ _ _ := rfl
  default _ _ _ hload := nomatch hload

theorem accounts_init {p : Params} (hinit : init h c p = some s) : Accounts s ∧ TrancheSupply s := by
  obtain ⟨⟨u, s'⟩, hrun, hs'⟩ := bind_eq_some_iff.mp hinit
  obtain rfl := some.inj hs'
  have haside : Aside ∅ s' := by
    refine Elsewhere.bind aside_setSellerOf (fun _ => ?_) hrun
    exact .bind (.stores (by decide)) fun _ => .stored (by decide)
  exact ⟨haside.accounts accounts_empty, haside.trancheSupply fun _ _ _ _ => rfl⟩

theorem accounts_run {events : List (LedgerEvent Call)} {t : Ledgered (Storage Record)}
    (hclean : ∀ m ∈ Ledgered.callsOf events, m.clean = true) (hrun : run h ⟨s, s⟩ events = some t) (hs : Accounts s) :
    Accounts t.now ∧ ((∀ m ∈ Ledgered.callsOf events, m.input.keepsSupplies = true) → TrancheSupply s →
      TrancheSupply t.now) := by
  constructor
  · have hback (last now : Storage Record) (hlast : Accounts last) (_ : Accounts now) : Accounts (back last now) := hlast
    have hcall (last now : Storage Record) (m : Call) (u : Storage Record) (hm : .call m ∈ events) (_ : Accounts last)
        (hnow : Accounts now) (hstep : step h now m = some u) : Accounts u :=
      (accounts_step (hclean m (Ledgered.mem_callsOf.mpr hm)) hstep hnow).1
    exact (Ledgered.run_keeps (I := Accounts) (s := ⟨_, _⟩) (fun _ => hback) hcall hs hs hrun).2
  · intro hkeeps hsupply
    have hback (last now : Storage Record) (hlast : Accounts last ∧ TrancheSupply last)
        (_ : Accounts now ∧ TrancheSupply now) : Accounts (back last now) ∧ TrancheSupply (back last now) := hlast
    have hcall (last now : Storage Record) (m : Call) (u : Storage Record) (hm : .call m ∈ events)
        (_ : Accounts last ∧ TrancheSupply last) (hnow : Accounts now ∧ TrancheSupply now)
        (hstep : step h now m = some u) : Accounts u ∧ TrancheSupply u := by
      have hm := Ledgered.mem_callsOf.mpr hm
      obtain ⟨haccounts, hkept⟩ := accounts_step (hclean m hm) hstep hnow.1
      exact ⟨haccounts, hkept (hkeeps m hm) hnow.2⟩
    have hkept := Ledgered.run_keeps (I := fun s => Accounts s ∧ TrancheSupply s) (s := ⟨_, _⟩) (fun _ => hback) hcall
      ⟨hs, hsupply⟩ ⟨hs, hsupply⟩ hrun
    exact hkept.2.2

/-- After any calls whose texts are clean, the supply of a sku is what the accounts have of it, and what an account has
of it is what it has in the tranches. If nothing was assigned to a tranche or destroyed, the supply of a tranche is what
the accounts have in it. -/
theorem balances_agree (h : Host) (c : Context) (p : Params) (s : Storage Record) (hinit : init h c p = some s)
    (events : List (LedgerEvent Call)) (hclean : ∀ m ∈ Ledgered.callsOf events, m.clean = true)
    (t : Ledgered (Storage Record)) (hrun : run h ⟨s, s⟩ events = some t) :
    (∀ sku r, t.now.lookup (skuKey sku) = some (.json (.sku r)) →
        clean sku = true ∧ Spells r.totalSupply (t.now.total (holders sku))) ∧
      (∀ sku a, clean sku = true → clean a = true → t.now.amountAt (bleKey sku a) = t.now.total (tranchesOf sku a)) ∧
      ((∀ m ∈ Ledgered.callsOf events, m.input.keepsSupplies = true) → TrancheSupply t.now) := by
  obtain ⟨hs, hsupply⟩ := accounts_init hinit
  obtain ⟨ht, hkept⟩ := accounts_run hclean hrun hs
  exact ⟨fun sku r hload => ⟨ht.known sku r hload, ht.supply sku r hload⟩, ht.tranches,
    fun hkeeps => hkept hkeeps hsupply⟩

/-! ### Fixed histories -/

/-- Every text is the address of a funded account and of its key, and records are short. -/
def plainHost : Host where
  addressCheck _ := true
  toAddress pub := some pub
  jsonSize _ := 100
  itemsLength _ := 100

def plainContext (a : Address) : Context where
  txSender := a
  msgSender := a
  blockTime := 0
  funded _ := true

/-- A hundred units of the sku `x` in the tranche 0, which is the default one. -/
def plainIssue : Issue where
  skuId := "x"
  trnId := some "0"
  isDftTrn := some true
  spuId := none
  name := "n"
  symbol := "s"
  faceVal := none
  supply := "100"
  decimals := "0"
  mainIcn := none
  viceIcns := none
  labels := none
  des := none
  repnAddr := "a"
  acpId := "p"
  abs := none

def plainCall (a : Address) (input : Input) : LedgerEvent Call := .call ⟨plainContext a, input⟩

/-- The seller `a` issues, and sets up another tranche. -/
def plainStart : List (LedgerEvent Call) :=
  [plainCall "a" (.setAcceptance "p" "b" "f" "s" none "c" "1"), plainCall "a" (.issue plainIssue),
    plainCall "a" (.createTranche "t" none)]

/-- The seller assigns 40 of the 100 units to the other tranche. -/
def assigned : List (LedgerEvent Call) := plainStart ++ [plainCall "a" (.assignToTranche "x" (some "t") "40")]

/-- Forty units are in a tranche with no supply, and 60 in one with a supply of 100. -/
theorem supply_not_assigned :
    ∃ s t, init plainHost (plainContext "a") ⟨"f", "s", "c"⟩ = some s ∧ run plainHost ⟨s, s⟩ assigned = some t ∧
      (∀ m ∈ Ledgered.callsOf assigned, m.clean = true) ∧
      t.now.amountAt (spyKey "x" "t") = 0 ∧ t.now.total (trancheHolders "x" "t") = 40 ∧
      t.now.amountAt (spyKey "x" "0") = 100 ∧ t.now.total (trancheHolders "x" "0") = 60 := by
  have hrun : ((init plainHost (plainContext "a") ⟨"f", "s", "c"⟩).bind fun s => run plainHost ⟨s, s⟩ assigned).any
      (fun t => t.now.amountAt (spyKey "x" "t") = 0 ∧ t.now.total (trancheHolders "x" "t") = 40 ∧
        t.now.amountAt (spyKey "x" "0") = 100 ∧ t.now.total (trancheHolders "x" "0") = 60) = true := by decide +kernel
  obtain ⟨t, ht, hall⟩ := (any_eq_true ..).mp hrun
  obtain ⟨s, hs, ht⟩ := bind_eq_some_iff.mp ht
  exact ⟨s, t, hs, ht, by decide +kernel, of_decide_eq_true hall⟩

/-- More is issued, the ledger is closed, and another account gets a part. -/
def issuedMore : List (LedgerEvent Call) :=
  plainStart ++ [plainCall "a" (.additionalIssuance "x" (some "0") "10"), .close,
    plainCall "a" (.transfer "x" none "b" "30")]

theorem balances_agree_issuedMore :
    ∃ s t, init plainHost (plainContext "a") ⟨"f", "s", "c"⟩ = some s ∧ run plainHost ⟨s, s⟩ issuedMore = some t ∧
      t.now.total (holders "x") = 110 ∧ t.now.amountAt (bleKey "x" "b") = t.now.total (tranchesOf "x" "b") ∧
        TrancheSupply t.now := by
  have hrun : ((init plainHost (plainContext "a") ⟨"f", "s", "c"⟩).bind fun s => run plainHost ⟨s, s⟩ issuedMore).any
      (fun t => t.now.total (holders "x") = 110) = true := by decide +kernel
  obtain ⟨t, ht, hall⟩ := (any_eq_true ..).mp hrun
  obtain ⟨s, hs, ht⟩ := bind_eq_some_iff.mp ht
  obtain ⟨-, htranches, hsupply⟩ := balances_agree plainHost (plainContext "a") ⟨"f", "s", "c"⟩ s hs issuedMore
    (by decide +kernel) t ht
  exact ⟨s, t, hs, ht, of_decide_eq_true hall, htranches "x" "b" (by decide) (by decide), hsupply (by decide +kernel)⟩

end Atp60
end OpenSesame
