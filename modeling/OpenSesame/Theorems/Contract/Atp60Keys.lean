import OpenSesame.Contract.Atp60

/-! # The keys of the ATP60 contract

A key is read as the texts between its underscores, up to the first NUL. -/

namespace OpenSesame
open List ScriptUtils
namespace Atp60

/-- A text without the separator of the keys and without NUL. -/
def clean (a : String) : Bool := !a.toList.contains '_' && !a.toList.contains '\x00'

variable {a : String}

theorem not_mem_of_clean (h : clean a = true) : '_' ∉ a.toList := by
  rw [clean, Bool.and_eq_true] at h
  simpa using h.1

theorem plain_of_clean (h : clean a = true) : Plain a := by
  rw [clean, Bool.and_eq_true] at h
  simpa [Plain] using h.2

theorem plain_joined {parts : List String} (h : ∀ x ∈ parts, Plain x) : Plain (joined parts) := by
  induction parts with
  | nil => decide
  | cons x l ih =>
    obtain ⟨hx, hl⟩ := forall_mem_cons.mp h
    cases l with
    | nil => exact hx
    | cons y l => exact plain_append.mpr ⟨plain_append.mpr ⟨hx, by decide⟩, ih hl⟩

theorem plain_makeKey {key : String} {parts : List String} (hkey : Plain key) (h : ∀ x ∈ parts, Plain x) :
    Plain (makeKey key parts) :=
  plain_append.mpr ⟨hkey, plain_joined h⟩

/-- The texts between the underscores of a key. -/
def segments (k : String) : List String := (k.toList.splitOn '_').map String.ofList

theorem segments_clean (h : clean a = true) : segments a = [a] := by
  have hsplit : a.toList.splitOn '_' = [a.toList] := by
    refine splitOnP_eq_singleton fun c hc => ?_
    rw [beq_eq_false_iff_ne]
    rintro rfl
    exact not_mem_of_clean h hc
  rw [segments, hsplit, map_singleton, String.ofList_toList]

theorem segments_joined (a k : String) : segments (a ++ "_" ++ k) = segments a ++ segments k := by
  have hlist : (a ++ "_" ++ k).toList = a.toList ++ '_' :: k.toList := by
    rw [String.toList_append, String.toList_append, append_assoc]
    rfl
  have hsplit : (a.toList ++ '_' :: k.toList).splitOn '_' = a.toList.splitOn '_' ++ k.toList.splitOn '_' :=
    splitOnP_append_cons _ _ (beq_self_eq_true '_')
  rw [segments, hlist, hsplit, map_append]
  rfl

theorem segments_cons (h : clean a = true) (k : String) : segments (a ++ "_" ++ k) = a :: segments k := by
  rw [segments_joined, segments_clean h, singleton_append]

theorem segments_inj {k k' : String} (h : segments k = segments k') : k = k' := by
  have hsplit : k.toList.splitOn '_' = k'.toList.splitOn '_' :=
    map_injective_iff.mpr (fun _ _ => String.ofList_injective) h
  have hlist : k.toList = k'.toList := by
    calc k.toList
      _ = ['_'].intercalate (k.toList.splitOn '_') := (intercalate_splitOn '_').symm
      _ = k'.toList := by rw [hsplit, intercalate_splitOn]
  exact String.toList_inj.mp hlist

theorem beq_eq_segments (k k' : String) : (k == k') = (segments k == segments k') := by
  rw [Bool.eq_iff_iff, beq_iff_eq, beq_iff_eq]
  exact ⟨congrArg segments, segments_inj⟩

theorem segments_append (ps : List String) (hps : ps.all clean = true) {b : String}
    (hb : b = ps.foldr (fun p r => p ++ "_" ++ r) "") (k : String) : segments (b ++ k) = ps ++ segments k := by
  subst hb
  induction ps with
  | nil => rw [foldr_nil, String.empty_append, nil_append]
  | cons p ps ih =>
    rw [all_cons, Bool.and_eq_true] at hps
    rw [foldr_cons, String.append_assoc, segments_cons hps.1, ih hps.2, cons_append]

/-- The key of the supply of a sku, with all that is known of it. -/
def skuKey (sku : String) : String := makeKey keys.sku [sku]

/-- The key of what an account has of a sku. -/
def bleKey (sku a : String) : String := makeKey keys.ble [sku, a]

def bletrnKey (sku trn a : String) : String := makeKey keys.bletrn [sku, trn, a]

/-- The key of the supply of a sku in a tranche. -/
def spyKey (sku trn : String) : String := makeKey keys.skutrnspy [sku, trn]

variable {sku sku' trn trn' a a' : String}

theorem segments_skuKey (sku : String) : segments (skuKey sku) = "sku" :: "token" :: segments sku :=
  segments_append ["sku", "token"] (by decide) (by decide) sku

theorem segments_bleKey (hsku : clean sku = true) (ha : clean a = true) :
    segments (bleKey sku a) = ["balance", sku, a] := by
  have hparts : segments (sku ++ "_" ++ a) = [sku, a] := by rw [segments_cons hsku, segments_clean ha]
  exact (segments_append ["balance"] (by decide) (by decide) _).trans (congrArg _ hparts)

theorem segments_bletrnKey (hsku : clean sku = true) (htrn : clean trn = true) (ha : clean a = true) :
    segments (bletrnKey sku trn a) = ["balance", "tranche", sku, trn, a] := by
  have hparts : segments (sku ++ "_" ++ (trn ++ "_" ++ a)) = [sku, trn, a] := by
    rw [segments_cons hsku, segments_cons htrn, segments_clean ha]
  exact (segments_append ["balance", "tranche"] (by decide) (by decide) _).trans (congrArg _ hparts)

theorem segments_spyKey (hsku : clean sku = true) (htrn : clean trn = true) :
    segments (spyKey sku trn) = ["sku", "tranche", "supply", sku, trn] := by
  have hparts : segments (sku ++ "_" ++ trn) = [sku, trn] := by rw [segments_cons hsku, segments_clean htrn]
  exact (segments_append ["sku", "tranche", "supply"] (by decide) (by decide) _).trans (congrArg _ hparts)

def isAmount (k : String) : Bool :=
  let l := segments k
  l.length == 3 && l[0]? == some "balance" || l.length == 5 && l[0]? == some "balance" && l[1]? == some "tranche" ||
    l.length == 5 && l[0]? == some "sku" && l[1]? == some "tranche" && l[2]? == some "supply"

def isSku (k : String) : Bool :=
  let l := segments k
  l[0]? == some "sku" && l[1]? == some "token"

def holders (sku k : String) : Bool :=
  let l := segments k
  l.length == 3 && l[0]? == some "balance" && l[1]? == some sku

/-- The host reads all of the key of an amount. -/
structure AmountKey (k : String) : Prop where
  amount : isAmount k = true
  sku : isSku k = false
  plain : Plain k

/-- What an account has of a sku in the tranches. -/
def tranchesOf (sku a k : String) : Bool :=
  let l := segments k
  l.length == 5 && l[0]? == some "balance" && l[1]? == some "tranche" && l[2]? == some sku && l[4]? == some a

/-- What the accounts have of a sku in a tranche. -/
def trancheHolders (sku trn k : String) : Bool :=
  let l := segments k
  l.length == 5 && l[0]? == some "balance" && l[1]? == some "tranche" && l[2]? == some sku && l[3]? == some trn

def concerns (sku k : String) : Bool :=
  let l := segments k
  l.length == 3 && l[0]? == some "balance" && l[1]? == some sku ||
    l.length == 5 && l[0]? == some "balance" && l[1]? == some "tranche" && l[2]? == some sku ||
    l.length == 5 && l[0]? == some "sku" && l[1]? == some "tranche" && l[2]? == some "supply" && l[3]? == some sku

variable {k : String}

theorem isAmount_of_concerns (hk : concerns sku k = true) : isAmount k = true := by
  simp only [concerns, isAmount, Bool.and_eq_true, Bool.or_eq_true] at hk ⊢
  rcases hk with (hk | hk) | hk
  · exact .inl (.inl hk.1)
  · exact .inl (.inr hk.1)
  · exact .inr hk.1

/-! ### The keys and the families -/

section Families
variable (hsku : clean sku = true) (htrn : clean trn = true) (ha : clean a = true)
include hsku ha

theorem amountKey_bleKey : AmountKey (bleKey sku a) where
  amount := by simp [isAmount, segments_bleKey hsku ha]
  sku := by simp [isSku, segments_bleKey hsku ha]
  plain := plain_makeKey (by decide) (by simp [plain_of_clean hsku, plain_of_clean ha])

@[simp] theorem concerns_bleKey : concerns sku (bleKey sku a) = true := by
  simp [concerns, segments_bleKey hsku ha]

@[simp] theorem holders_bleKey (sku' : String) : holders sku' (bleKey sku a) = (sku == sku') := by
  simp [holders, segments_bleKey hsku ha]

@[simp] theorem tranchesOf_bleKey (sku' a' : String) : tranchesOf sku' a' (bleKey sku a) = false := by
  simp [tranchesOf, segments_bleKey hsku ha]

@[simp] theorem trancheHolders_bleKey (sku' trn' : String) : trancheHolders sku' trn' (bleKey sku a) = false := by
  simp [trancheHolders, segments_bleKey hsku ha]

@[simp] theorem bleKey_beq_bleKey (hsku' : clean sku' = true) (ha' : clean a' = true) :
    (bleKey sku a == bleKey sku' a') = (sku == sku' && a == a') := by
  rw [beq_eq_segments, segments_bleKey hsku ha, segments_bleKey hsku' ha']
  simp

@[simp] theorem bleKey_beq_spyKey (hsku' : clean sku' = true) (htrn' : clean trn' = true) :
    (bleKey sku a == spyKey sku' trn') = false := by
  rw [beq_eq_segments, segments_bleKey hsku ha, segments_spyKey hsku' htrn']
  simp

include htrn

theorem amountKey_bletrnKey : AmountKey (bletrnKey sku trn a) where
  amount := by simp [isAmount, segments_bletrnKey hsku htrn ha]
  sku := by simp [isSku, segments_bletrnKey hsku htrn ha]
  plain := plain_makeKey (by decide) (by simp [plain_of_clean hsku, plain_of_clean htrn, plain_of_clean ha])

@[simp] theorem concerns_bletrnKey : concerns sku (bletrnKey sku trn a) = true := by
  simp [concerns, segments_bletrnKey hsku htrn ha]

@[simp] theorem holders_bletrnKey (sku' : String) : holders sku' (bletrnKey sku trn a) = false := by
  simp [holders, segments_bletrnKey hsku htrn ha]

@[simp] theorem tranchesOf_bletrnKey (sku' a' : String) :
    tranchesOf sku' a' (bletrnKey sku trn a) = (sku == sku' && a == a') := by
  simp [tranchesOf, segments_bletrnKey hsku htrn ha]

@[simp] theorem trancheHolders_bletrnKey (sku' trn' : String) :
    trancheHolders sku' trn' (bletrnKey sku trn a) = (sku == sku' && trn == trn') := by
  simp [trancheHolders, segments_bletrnKey hsku htrn ha]

@[simp] theorem bletrnKey_beq_bleKey (hsku' : clean sku' = true) (ha' : clean a' = true) :
    (bletrnKey sku trn a == bleKey sku' a') = false := by
  rw [beq_eq_segments, segments_bletrnKey hsku htrn ha, segments_bleKey hsku' ha']
  simp

@[simp] theorem bletrnKey_beq_spyKey (hsku' : clean sku' = true) (htrn' : clean trn' = true) :
    (bletrnKey sku trn a == spyKey sku' trn') = false := by
  rw [beq_eq_segments, segments_bletrnKey hsku htrn ha, segments_spyKey hsku' htrn']
  simp

end Families

section Supplies
variable (hsku : clean sku = true) (htrn : clean trn = true)
include hsku htrn

theorem amountKey_spyKey : AmountKey (spyKey sku trn) where
  amount := by simp [isAmount, segments_spyKey hsku htrn]
  sku := by simp [isSku, segments_spyKey hsku htrn]
  plain := plain_makeKey (by decide) (by simp [plain_of_clean hsku, plain_of_clean htrn])

@[simp] theorem concerns_spyKey : concerns sku (spyKey sku trn) = true := by
  simp [concerns, segments_spyKey hsku htrn]

@[simp] theorem holders_spyKey (sku' : String) : holders sku' (spyKey sku trn) = false := by
  simp [holders, segments_spyKey hsku htrn]

@[simp] theorem tranchesOf_spyKey (sku' a' : String) : tranchesOf sku' a' (spyKey sku trn) = false := by
  simp [tranchesOf, segments_spyKey hsku htrn]

@[simp] theorem trancheHolders_spyKey (sku' trn' : String) : trancheHolders sku' trn' (spyKey sku trn) = false := by
  simp [trancheHolders, segments_spyKey hsku htrn]

@[simp] theorem spyKey_beq_bleKey (hsku' : clean sku' = true) (ha' : clean a' = true) :
    (spyKey sku trn == bleKey sku' a') = false := by
  rw [beq_eq_segments, segments_spyKey hsku htrn, segments_bleKey hsku' ha']
  simp

@[simp] theorem spyKey_beq_spyKey (hsku' : clean sku' = true) (htrn' : clean trn' = true) :
    (spyKey sku trn == spyKey sku' trn') = (sku == sku' && trn == trn') := by
  rw [beq_eq_segments, segments_spyKey hsku htrn, segments_spyKey hsku' htrn']
  simp

end Supplies

theorem isSku_skuKey (sku : String) : isSku (skuKey sku) = true := by
  simp [isSku, segments_skuKey]

theorem toCString_skuKey (sku : String) : toCString (skuKey sku) = skuKey (toCString sku) := toCString_append (by decide)

theorem skuKey_inj (heq : skuKey sku = skuKey sku') : sku = sku' := by
  have hlists := congrArg String.toList heq
  simp only [skuKey, makeKey, joined, String.toList_append] at hlists
  exact String.toList_inj.mp (append_cancel_left hlists)

theorem eq_of_concerns (hk : concerns sku k = true) (hk' : concerns sku' k = true) : sku = sku' := by
  simp only [concerns, Bool.or_eq_true, Bool.and_eq_true, beq_iff_eq] at hk hk'
  rcases hk with (⟨⟨hlength, hzero⟩, hone⟩ | ⟨⟨⟨hlength, hzero⟩, hone⟩, htwo⟩) |
    ⟨⟨⟨⟨hlength, hzero⟩, hone⟩, htwo⟩, hthree⟩
  · rcases hk' with (⟨-, hone'⟩ | ⟨⟨⟨hlength', -⟩, -⟩, -⟩) | ⟨⟨⟨⟨hlength', -⟩, -⟩, -⟩, -⟩
    · exact Option.some.inj (hone.symm.trans hone')
    · omega
    · omega
  · rcases hk' with (⟨⟨hlength', -⟩, -⟩ | ⟨-, htwo'⟩) | ⟨⟨⟨⟨-, hzero'⟩, -⟩, -⟩, -⟩
    · omega
    · exact Option.some.inj (htwo.symm.trans htwo')
    · exact absurd (Option.some.inj (hzero.symm.trans hzero')) (by decide)
  · rcases hk' with (⟨⟨hlength', -⟩, -⟩ | ⟨⟨⟨-, hzero'⟩, -⟩, -⟩) | ⟨-, hthree'⟩
    · omega
    · exact absurd (Option.some.inj (hzero.symm.trans hzero')) (by decide)
    · exact Option.some.inj (hthree.symm.trans hthree')

theorem concerns_of_holders (hk : holders sku k = true) : concerns sku k = true := by
  simp only [holders, concerns, Bool.and_eq_true, Bool.or_eq_true] at hk ⊢
  exact .inl (.inl hk)

theorem concerns_of_tranchesOf (hk : tranchesOf sku a k = true) : concerns sku k = true := by
  simp only [tranchesOf, concerns, Bool.and_eq_true, Bool.or_eq_true] at hk ⊢
  exact .inl (.inr hk.1)

theorem concerns_of_trancheHolders (hk : trancheHolders sku trn k = true) : concerns sku k = true := by
  simp only [trancheHolders, concerns, Bool.and_eq_true, Bool.or_eq_true] at hk ⊢
  exact .inl (.inr hk.1)

/-! ### Keys of everything else -/

theorem segments_ne_nil (k : String) : segments k ≠ [] := by
  rw [segments, Ne, map_eq_nil_iff]
  exact splitOnP_ne_nil _ _

def isElse (k : String) : Bool := !(isAmount k || isSku k)

def otherKeys : List String :=
  [keys.doc, keys.docspg, keys.spu, keys.trn, keys.trnskuspgs, keys.trnskuspg, keys.spuskuspgs, keys.spuskuspg,
    keys.acp, keys.alw, keys.repn, keys.dpt, keys.evi, keys.skutrnspgs, keys.skutrnspg, keys.skuacpspgs, keys.skuacpspg,
    keys.skuauth, keys.bletrnspgs, keys.bletrnspg]

/-- What the key begins with, up to the last underscore. -/
def stem (key : String) : String := String.ofList key.toList.dropLast

/-- No key that begins with these texts is one of an amount or of a sku, whatever follows. -/
def elsewhere : List String → Bool
  | "sku" :: q :: _ => q != "tranche" && q != "token"
  | "balance" :: q :: _ :: _ => q != "tranche"
  | p :: _ => p != "balance" && p != "sku"
  | [] => false

theorem isElse_of_segments {l l' : List String} (hk : segments k = l ++ l') (hl : elsewhere l = true)
    (hl' : l' ≠ []) : isElse k = true := by
  unfold elsewhere at hl
  split at hl
  · simp_all [isElse, isAmount, isSku]
  · simp_all [isElse, isAmount, isSku]
  · simp_all [isElse, isAmount, isSku]
  · cases hl

theorem isElse_makeKey {key : String} (hkey : key ∈ otherKeys) (parts : List String) :
    isElse (toCString (makeKey key parts)) = true := by
  have hkeys : ∀ key ∈ otherKeys, key = stem key ++ "_" ∧ elsewhere (segments (stem key)) = true ∧ Plain key := by
    decide
  obtain ⟨hstem, hhead, hplain⟩ := hkeys key hkey
  have hsegments : segments (toCString (makeKey key parts)) =
      segments (stem key) ++ segments (toCString (joined parts)) := by
    rw [makeKey, toCString_append hplain]
    conv_lhs => rw [hstem]
    rw [segments_joined]
  exact isElse_of_segments hsegments hhead (segments_ne_nil _)

/-! ### Holdings that do not share a key -/

/-- What an account has of a sku in a tranche. -/
structure Holding where
  sku : String
  trn : String
  account : Address
  deriving DecidableEq

namespace Holding

def parts (p : Holding) : List String := [p.sku, p.trn, p.account]

/-- The key under which the host finds the holding. -/
def entry (p : Holding) : String := toCString (makeKey keys.bletrn p.parts)

/-- The other sku id, or for the same sku the other tranche id, goes on after an underscore with what in the key of the
first holding comes next. -/
def Overlaps (p q : Holding) : Prop :=
  (∃ w, q.sku = p.sku ++ "_" ++ w ∧ joined [p.trn, p.account] = joined [w, q.trn, q.account]) ∨
    p.sku = q.sku ∧ ∃ w, q.trn = p.trn ++ "_" ++ w ∧ p.account = joined [w, q.account]

end Holding

theorem ne_append_underscore (x w : String) : x ≠ x ++ "_" ++ w := by
  intro heq
  have hlength := congrArg (fun s => s.toList.length) heq
  simp [String.toList_append] at hlength

namespace Holding
variable {p q : Holding}

theorem Overlaps.ne (h : p.Overlaps q) : p ≠ q := by
  rintro rfl
  rcases h with ⟨w, hsku, -⟩ | ⟨-, w, htrn, -⟩
  · exact ne_append_underscore _ _ hsku
  · exact ne_append_underscore _ _ htrn

end Holding

end Atp60
end OpenSesame
