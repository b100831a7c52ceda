import Mathlib.Data.List.Induction
import Mathlib.Logic.Denumerable
import Mathlib.Logic.Equiv.List
import OpenSesame.Glue.LedgerUpgrade
import OpenSesame.Lib.Table
import OpenSesame.Utils.Strings

/-! # Upgrades of the ledger need a quorum

`Recv` replaces what it holds of a sender whatever the nonce is. -/

namespace OpenSesame
open LedgerUpgrade List
namespace LedgerUpgrade

open Protocol

variable {n : UpgradeNode} {s : LedgerUpgrade} {log : List LedgerUpgradeNotify} {msg : LedgerUpgradeNotify} {a : String}

/-- The state after the events, and the validly signed notifications that were received. -/
def run (n : UpgradeNode) (s : LedgerUpgrade) : List Event → LedgerUpgrade × List LedgerUpgradeNotify
  | [] => (s, [])
  | e :: es => ((run n (step n s e) es).1, (handed n s e).filter n.signed ++ (run n (step n s e) es).2)

/-- Of the notifications of a sender, one has the highest nonce and names the upgrade. -/
def NamesLast (n : UpgradeNode) (log : List LedgerUpgradeNotify) (a : String) (upgrade : Protocol.UpgradeMessage) : Prop :=
  ∃ msg ∈ log, n.sender msg = a ∧ msg.upgrade = upgrade ∧ ∀ other ∈ log, n.sender other = a → other.nonce ≤ msg.nonce

/-- The notifications of each sender are in the order of their nonces, and all are for the chain of the node. -/
structure Orderly (n : UpgradeNode) (log : List LedgerUpgradeNotify) : Prop where
  nonces : log.Pairwise fun msg later => n.sender msg = n.sender later → msg.nonce ≤ later.nonce
  chain : ∀ msg ∈ log, msg.upgrade.chainId = n.selfChainId

/-- What is held of a sender is what it named last. -/
def Latest (n : UpgradeNode) (log : List LedgerUpgradeNotify) (s : LedgerUpgrade) : Prop :=
  ∀ a (frm : LedgerUpgradeFrm), s.currentStates[a]? = some frm → frm.address = a ∧ NamesLast n log a frm.msg.upgrade

theorem NamesLast.append {upgrade : Protocol.UpgradeMessage} {l : List LedgerUpgradeNotify}
    (h : NamesLast n log a upgrade) (hl : ∀ msg ∈ l, n.sender msg ≠ a) : NamesLast n (log ++ l) a upgrade := by
  obtain ⟨msg, hmsg, hsender, hupgrade, hlast⟩ := h
  refine ⟨msg, mem_append_left _ hmsg, hsender, hupgrade, fun other hother ha => ?_⟩
  rcases mem_append.mp hother with hother | hother
  · exact hlast other hother ha
  · exact absurd ha (hl other hother)

theorem Latest.recv {now : ℤ} (h : Latest n log s) (horderly : Orderly n (log ++ [msg].filter n.signed)) :
    Latest n (log ++ [msg].filter n.signed) (recv n now msg s) := by
  by_cases hsigned : n.signed msg = true
  · rw [filter_cons_of_pos hsigned, filter_nil] at horderly ⊢
    have hchain : msg.upgrade.chainId = n.selfChainId := horderly.chain msg (by simp)
    intro a frm hfrm
    rw [LedgerUpgrade.recv, if_pos (by simp [hsigned, hchain])] at hfrm
    rcases Table.insert_eq_some hfrm with ⟨rfl, rfl⟩ | ⟨hne, hfrm⟩
    · refine ⟨rfl, msg, by simp, rfl, rfl, fun other hother hsender => ?_⟩
      rcases mem_append.mp hother with hother | hother
      · exact (pairwise_append.mp horderly.nonces).2.2 other hother msg (by simp) hsender
      · rw [mem_singleton.mp hother]
    · obtain ⟨haddress, hlast⟩ := h a frm hfrm
      exact ⟨haddress, hlast.append (by simpa using hne.symm)⟩
  · rw [filter_cons_of_neg hsigned, filter_nil, append_nil, LedgerUpgrade.recv, if_neg (by simp [hsigned])]
    exact h

theorem Latest.step {e : Event} (h : Latest n log s) (horderly : Orderly n (log ++ (handed n s e).filter n.signed)) :
    Latest n (log ++ (handed n s e).filter n.signed) (step n s e) := by
  cases e with
  | recv now msg => exact h.recv horderly
  | onTimer currentTime now =>
    have hcurrent : Latest n log (s.current currentTime) := fun a frm hfrm => h a frm (Table.filter_eq_some.mp hfrm).1
    simp only [LedgerUpgrade.step, onTimer, handed] at horderly ⊢
    cases hnotify : notify n currentTime (s.current currentTime) with
    | none => simpa [hnotify] using hcurrent
    | some msg =>
      rw [hnotify] at horderly
      by_cases hvalidator : n.isValidator = true
      · rw [if_pos hvalidator] at horderly
        rw [if_pos hvalidator]
        dsimp only
        rw [if_pos hvalidator]
        exact Latest.recv (s := { s.current currentTime with lastSendTime := currentTime }) hcurrent horderly
      · rw [if_neg hvalidator, filter_nil, append_nil]
        dsimp only
        rw [if_neg hvalidator]
        exact hcurrent

theorem Orderly.left {l : List LedgerUpgradeNotify} (h : Orderly n (log ++ l)) : Orderly n log :=
  ⟨(pairwise_append.mp h.nonces).1, fun msg hmsg => h.chain msg (mem_append_left _ hmsg)⟩

theorem Latest.run {events : List Event} (h : Latest n log s) (horderly : Orderly n (log ++ (run n s events).2)) :
    Latest n (log ++ (run n s events).2) (run n s events).1 := by
  induction events generalizing log s with
  | nil => simpa [run] using h
  | cons e events ih =>
    rw [run, ← append_assoc] at horderly ⊢
    exact ih (h.step horderly.left) horderly

/-! ### Counting -/

/-- The frame names an upgrade of a class and is of a validator. -/
def counted (n : UpgradeNode) (validators : List String) (k : String) (frm : LedgerUpgradeFrm) : Bool :=
  n.serialize frm.msg.upgrade == k && validators.contains frm.address

section Counting
variable {validators : List String} {l : List LedgerUpgradeFrm} {k : String}

theorem counter_class {e : Protocol.UpgradeMessage × ℕ} (h : (l.foldl (count n validators) ∅)[k]? = some e) :
    n.serialize e.1 = k := by
  induction l using reverseRecOn generalizing e with
  | nil => simp at h
  | append_singleton l frm ih =>
    rw [foldl_append, foldl_cons, foldl_nil] at h
    rcases Table.insert_eq_some h with ⟨rfl, rfl⟩ | ⟨-, h⟩
    · dsimp only
      rw [Std.TreeMap.getD_eq_getD_getElem?]
      cases hentry : (l.foldl (count n validators) ∅)[n.serialize frm.msg.upgrade]? with
      | none => rfl
      | some entry => exact ih hentry
    · exact ih h

theorem counter_length (n : UpgradeNode) (validators : List String) (l : List LedgerUpgradeFrm) (k : String) :
    ((l.foldl (count n validators) ∅)[k]?).elim 0 Prod.snd =
    (l.filter (counted n validators k)).length := by
  induction l using reverseRecOn with
  | nil => simp
  | append_singleton l frm ih =>
    rw [foldl_append, foldl_cons, foldl_nil, filter_append, length_append, ← ih, count]
    by_cases hk : k = n.serialize frm.msg.upgrade
    · subst hk
      rw [Std.TreeMap.getElem?_insert_self, Std.TreeMap.getD_eq_getD_getElem?, Option.elim_some]
      have hentry : (((l.foldl (count n validators) ∅)[n.serialize frm.msg.upgrade]?).getD (frm.msg.upgrade, 0)).2 =
          ((l.foldl (count n validators) ∅)[n.serialize frm.msg.upgrade]?).elim 0 Prod.snd := by
        cases (l.foldl (count n validators) ∅)[n.serialize frm.msg.upgrade]? <;> rfl
      by_cases hmember : frm.address ∈ validators <;> simp [counted, hmember, hentry]
    · rw [Table.insert_of_ne hk]
      simp [counted, Ne.symm hk]

end Counting

/-- An upgrade is valid only if a quorum of the validators named it in their notification with the highest nonce. -/
theorem valid_has_quorum (n : UpgradeNode) (localState : Protocol.UpgradeMessage) (events : List Event)
    (horderly : Orderly n (run n { localState := localState } events).2) (validators : List String) (quorumSize : ℕ)
    (upgrade : Protocol.UpgradeMessage)
    (hvalid : getValid n validators quorumSize (run n { localState := localState } events).1 = some upgrade) :
    ∃ members : List String, members.Nodup ∧ quorumSize ≤ members.length ∧
      ∀ a ∈ members, a ∈ validators ∧ NamesLast n (run n { localState := localState } events).2 a upgrade := by
  have hlatest : Latest n (run n { localState := localState } events).2 (run n { localState := localState } events).1 := by
    have hempty : Latest n [] { localState := localState } := by simp [Latest]
    exact hempty.run (by simpa using horderly)
  generalize run n { localState := localState } events = r at hlatest hvalid ⊢
  obtain ⟨⟨k, e⟩, hfind, rfl⟩ := Option.map_eq_some_iff.mp hvalid
  have hentry := Table.mem_toList.mp (mem_of_find?_eq_some hfind)
  have hquorum : quorumSize ≤ e.2 := by simpa using List.find?_some hfind
  have hlength := counter_length n validators (r.1.currentStates.toList.map Prod.snd) k
  rw [hentry, Option.elim_some, filter_map, length_map] at hlength
  have hkeys := Std.TreeMap.nodup_keys (t := r.1.currentStates)
  rw [← Std.TreeMap.map_fst_toList_eq_keys] at hkeys
  refine ⟨(r.1.currentStates.toList.filter (counted n validators k ∘ Prod.snd)).map Prod.fst,
    hkeys.sublist (filter_sublist.map Prod.fst), ?_, ?_⟩
  · rw [length_map, ← hlength]
    exact hquorum
  · rintro a ha
    obtain ⟨⟨a, frm⟩, hmem, rfl⟩ := mem_map.mp ha
    obtain ⟨hstate, hcounted⟩ := mem_filter.mp hmem
    obtain ⟨haddress, hlast⟩ := hlatest a frm (Table.mem_toList.mp hstate)
    simp only [counted, Function.comp_apply, Bool.and_eq_true, beq_iff_eq, contains_iff_mem, haddress] at hcounted
    have hupgrade : frm.msg.upgrade = e.1 := n.serialize_inj _ _ (hcounted.1.trans (counter_class hentry).symm)
    exact ⟨hcounted.2, hupgrade ▸ hlast⟩

/-- A node of chain 0 that takes every signature, with public keys for addresses. -/
def sampleNode : UpgradeNode where
  serialize u := toString (Encodable.encode (u.newLedgerVersion, u.newValidator.toList.map Char.toNat, u.chainId) : ℤ)
  serialize_inj a b h := by
    have hpair := Encodable.encode_injective (Int.natCast_inj.mp (Strings.toString_inj h))
    simp only [Prod.mk.injEq] at hpair
    obtain ⟨hversion, hvalidator, hchain⟩ := hpair
    have htext := String.toList_inj.mp (map_injective_iff.mpr (fun _ _ => Char.toNat_inj.mp) hvalidator)
    cases a
    cases b
    simp_all
  verify _ _ _ := true
  encAddress key := key
  selfChainId := 0
  publicKey := "w"
  sign _ := ""
  isValidator := false

/-- The notifications of a validator for version 2 and, sent before it, for version 1. -/
def lateNotify : Event := .recv 0 ⟨2, ⟨2, "", 0⟩, "", "v"⟩
def earlyNotify : Event := .recv 1 ⟨1, ⟨1, "", 0⟩, "", "v"⟩

/-- The replay of the earlier notification makes its upgrade valid, although the validator named another one last. -/
theorem replayed_upgrade_valid :
    getValid sampleNode ["v"] 1 (run sampleNode {} [lateNotify, earlyNotify]).1 = some ⟨1, "", 0⟩ ∧
    ¬NamesLast sampleNode (run sampleNode {} [lateNotify, earlyNotify]).2 "v" ⟨1, "", 0⟩ := by
  refine ⟨by decide +kernel, ?_⟩
  have hlog : (run sampleNode {} [lateNotify, earlyNotify]).2 = [⟨2, ⟨2, "", 0⟩, "", "v"⟩, ⟨1, ⟨1, "", 0⟩, "", "v"⟩] := rfl
  rw [hlog]
  rintro ⟨msg, hmsg, -, hupgrade, hlast⟩
  have hnonce := hlast ⟨2, ⟨2, "", 0⟩, "", "v"⟩ (by simp) rfl
  rcases mem_pair.mp hmsg with rfl | rfl
  · cases hupgrade
  · exact absurd hnonce (by decide)

theorem valid_has_quorum_in_order : ∃ members : List String, members.Nodup ∧ 1 ≤ members.length ∧
    ∀ a ∈ members, a ∈ ["v"] ∧ NamesLast sampleNode (run sampleNode {} [earlyNotify, lateNotify]).2 a ⟨2, "", 0⟩ := by
  refine valid_has_quorum sampleNode {} [earlyNotify, lateNotify] ⟨?_, ?_⟩ ["v"] 1 ⟨2, "", 0⟩ (by decide +kernel)
  · decide +kernel
  · decide +kernel

end LedgerUpgrade
end OpenSesame
