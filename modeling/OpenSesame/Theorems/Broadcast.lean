import OpenSesame.Lib.Table
import OpenSesame.Overlay.Broadcast

/-! # Broadcast records expire

The two maps of `Broadcast` stay in one-to-one correspondence as long as no two records have one time stamp: the
second one would take the place of the first in `records_couple_`, and the timer would never find the first. -/

namespace OpenSesame
open Table List
namespace Broadcast

variable {crypto : String → String} {b : Broadcast}

/-- The entries of the two maps correspond to each other. -/
structure Paired (b : Broadcast) : Prop where
  couple : ∀ t hash, b.recordsCouple[t]? = some hash → ∃ r : BroadcastRecord, b.records[hash]? = some r ∧ r.timeStamp = t
  record : ∀ hash (r : BroadcastRecord), b.records[hash]? = some r → b.recordsCouple[r.timeStamp]? = some hash

/-- A call that makes a record makes it at a time at which there is none. -/
def fresh (crypto : String → String) (b : Broadcast) : ℤ × Call → Prop
  | (now, .add _ data _) | (now, .send _ data _) => b.records[crypto data]? = none → b.recordsCouple[now]? = none
  | (_, .onTimer) => True

theorem Paired.put {hash : String} {record : BroadcastRecord} (h : Paired b) (hnew : b.records[hash]? = none)
    (hfree : b.recordsCouple[record.timeStamp]? = none) : Paired (b.put hash record) where
  couple t other ht := by
    rcases insert_eq_some ht with ⟨rfl, rfl⟩ | ⟨-, ht⟩
    · exact ⟨record, Std.TreeMap.getElem?_insert_self, rfl⟩
    · obtain ⟨r, hr, hstamp⟩ := h.couple t other ht
      have hother : other ≠ hash := by
        rintro rfl
        cases hnew.symm.trans hr
      exact ⟨r, (insert_of_ne hother).trans hr, hstamp⟩
  record other r hr := by
    rcases insert_eq_some hr with ⟨rfl, rfl⟩ | ⟨-, hr⟩
    · exact Std.TreeMap.getElem?_insert_self
    · have hcouple := h.record other r hr
      have hstamp : r.timeStamp ≠ record.timeStamp := by
        intro hsame
        rw [hsame, hfree] at hcouple
        cases hcouple
      exact (insert_of_ne hstamp).trans hcouple

theorem Paired.note {hash : String} {record : BroadcastRecord} {peers : Finset ℤ} (h : Paired b)
    (hrecord : b.records[hash]? = some record) :
    Paired { b with records := b.records.insert hash { record with peers := peers } } where
  couple t other ht := by
    obtain ⟨r, hr, hstamp⟩ := h.couple t other ht
    by_cases hother : other = hash
    · subst hother
      cases hrecord.symm.trans hr
      exact ⟨_, Std.TreeMap.getElem?_insert_self, hstamp⟩
    · exact ⟨r, (insert_of_ne hother).trans hr, hstamp⟩
  record other r hr := by
    rcases insert_eq_some hr with ⟨rfl, rfl⟩ | ⟨-, hr⟩
    · exact h.record _ record hrecord
    · exact h.record other r hr

theorem Paired.drop {t : ℤ} {hash : String} (h : Paired b) (ht : b.recordsCouple[t]? = some hash) :
    Paired (b.drop (t, hash)) where
  couple t' other hother := by
    obtain ⟨hne, hother⟩ := erase_eq_some hother
    obtain ⟨r, hr, hstamp⟩ := h.couple t' other hother
    have hhash : other ≠ hash := by
      rintro rfl
      obtain ⟨r', hr', hstamp'⟩ := h.couple t other ht
      cases hr.symm.trans hr'
      exact hne (hstamp.symm.trans hstamp')
    exact ⟨r, (erase_of_ne hhash).trans hr, hstamp⟩
  record other r hr := by
    obtain ⟨hne, hr⟩ := erase_eq_some hr
    have hcouple := h.record other r hr
    have hstamp : r.timeStamp ≠ t := by
      rintro rfl
      exact hne (Option.some.inj (hcouple.symm.trans ht))
    exact (erase_of_ne hstamp).trans hcouple

section Drops
variable {l : List (ℤ × String)}

theorem drops_couple {t : ℤ} {hash : String} (h : (l.foldl drop b).recordsCouple[t]? = some hash) :
    t ∉ l.map Prod.fst ∧ b.recordsCouple[t]? = some hash := by
  induction l generalizing b with
  | nil => exact ⟨not_mem_nil, h⟩
  | cons e l ih =>
    obtain ⟨hrest, hfirst⟩ := ih h
    obtain ⟨hne, hcouple⟩ := erase_eq_some hfirst
    exact ⟨not_mem_cons_of_ne_of_not_mem hne hrest, hcouple⟩

theorem Paired.drops (hkeys : (l.map Prod.fst).Nodup) (hl : ∀ e ∈ l, b.recordsCouple[e.1]? = some e.2)
    (h : Paired b) : Paired (l.foldl Broadcast.drop b) := by
  induction l generalizing b with
  | nil => exact h
  | cons e l ih =>
    obtain ⟨hfirst, hl⟩ := forall_mem_cons.mp hl
    obtain ⟨hnot, hkeys⟩ := nodup_cons.mp hkeys
    refine ih hkeys (fun e' he' => ?_) (h.drop hfirst)
    have hne : e'.1 ≠ e.1 := fun heq => hnot (heq ▸ mem_map_of_mem he')
    exact (erase_of_ne hne).trans (hl e' he')

theorem Paired.drops_sublist (hl : l.Sublist b.recordsCouple.toList) (h : Paired b) :
    Paired (l.foldl Broadcast.drop b) := by
  refine h.drops ?_ fun e he => mem_toList.mp (hl.mem he)
  have hkeys := Std.TreeMap.nodup_keys (t := b.recordsCouple)
  rw [← Std.TreeMap.map_fst_toList_eq_keys] at hkeys
  exact hkeys.sublist (hl.map Prod.fst)

end Drops

theorem mem_takeWhile_of_sorted {p : ℤ → Bool} (hp : ∀ x y, x ≤ y → p y = true → p x = true) {l : List (ℤ × String)}
    (hl : l.Pairwise fun x y => x.1 ≤ y.1) {e : ℤ × String} (he : e ∈ l) (hpe : p e.1 = true) :
    e ∈ l.takeWhile fun e => p e.1 := by
  induction l with
  | nil => cases he
  | cons x l ih =>
    obtain ⟨hx, hl⟩ := pairwise_cons.mp hl
    rcases mem_cons.mp he with rfl | he
    · simp [hpe]
    · simp [hp x.1 e.1 (hx e he) hpe, ih hl he]

theorem Paired.onTimer {now : ℤ} (h : Paired b) : Paired (b.onTimer now) := by
  unfold Broadcast.onTimer
  dsimp only
  have hexpired := h.drops_sublist (takeWhile_sublist fun e => decide (e.1 + leeway < now))
  split
  · exact hexpired.drops_sublist (take_sublist ..)
  · exact hexpired

theorem onTimer_couple {now t : ℤ} {hash : String} (h : (b.onTimer now).recordsCouple[t]? = some hash) :
    now ≤ t + leeway := by
  have hkept : t ∉ (b.recordsCouple.toList.takeWhile fun e => e.1 + leeway < now).map Prod.fst ∧
      b.recordsCouple[t]? = some hash := by
    unfold Broadcast.onTimer at h
    dsimp only at h
    split at h
    · exact drops_couple (drops_couple h).2
    · exact drops_couple h
  by_contra hold
  refine hkept.1 (mem_map.mpr ⟨(t, hash), ?_, rfl⟩)
  refine mem_takeWhile_of_sorted (p := fun t => t + leeway < now) (fun x y hxy hy => ?_) ?_
    (mem_toList.mpr hkept.2) (by simpa using hold)
  · rw [decide_eq_true_eq] at hy ⊢
    omega
  · exact Std.TreeMap.ordered_keys_toList.imp fun hlt => (Int.compare_eq_lt.mp hlt).le

theorem Paired.step {call : ℤ × Call} (h : Paired b) (hfresh : fresh crypto b call) : Paired (step crypto b call) := by
  obtain ⟨now, call⟩ := call
  cases call with
  | add type data peerId =>
    change Paired (add crypto now type data peerId b).2
    unfold add
    dsimp only
    split
    · rename_i hnone
      exact h.put hnone (hfresh hnone)
    · exact h.note ‹_›
  | send type data active =>
    change Paired (send crypto now type data active b).2
    unfold send
    dsimp only
    split
    · rename_i hnone
      exact h.put hnone (hfresh hnone)
    · exact h.note ‹_›
  | onTimer => exact h.onTimer

/-- Every call of a sequence that makes a record makes it at a time at which there is none. -/
def Fresh (crypto : String → String) : Broadcast → List (ℤ × Call) → Prop
  | _, [] => True
  | b, call :: calls => fresh crypto b call ∧ Fresh crypto (step crypto b call) calls

theorem Paired.foldl {calls : List (ℤ × Call)} (h : Paired b) (hfresh : Fresh crypto b calls) :
    Paired (calls.foldl (Broadcast.step crypto) b) := by
  induction calls generalizing b with
  | nil => exact h
  | cons call calls ih => exact ih (h.step hfresh.1) hfresh.2

/-- Where no two records are made at one time, the two maps correspond to each other, and after a call of the timer
    no record is older than 3600 seconds. -/
theorem records_expire (crypto : String → String) (calls : List (ℤ × Call)) (hfresh : Fresh crypto {} calls) :
    Paired (run crypto calls) ∧ ∀ (now : ℤ) (hash : String) (r : BroadcastRecord),
      (onTimer now (run crypto calls)).records[hash]? = some r → now ≤ r.timeStamp + leeway := by
  have hempty : Paired {} := ⟨by simp, by simp⟩
  have hpaired : Paired (run crypto calls) := hempty.foldl hfresh
  exact ⟨hpaired, fun now hash r hr => onTimer_couple (hpaired.onTimer.record hash r hr)⟩

/-- Two messages at one time: the record of the first is still there when it is over an hour old. -/
theorem record_leaks : ((run id [(0, .add 1 "a" 7), (0, .add 1 "b" 7), (leeway + 1, .onTimer)]).records["a"]?).any
    (fun r => decide (r.timeStamp + leeway < leeway + 1)) = true := by
  decide +kernel

theorem records_expire_two : Paired (run id [(0, .add 1 "a" 7), (1, .send 1 "b" {7, 8}), (1, .add 2 "b" 9)]) := by
  have hfresh : Fresh id {} [(0, .add 1 "a" 7), (1, .send 1 "b" {7, 8}), (1, .add 2 "b" 9)] := by
    refine ⟨fun _ => ?_, fun _ => ?_, fun h => absurd h ?_, trivial⟩ <;> decide +kernel
  exact (records_expire id _ hfresh).1

end Broadcast
end OpenSesame
