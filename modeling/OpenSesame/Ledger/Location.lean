import OpenSesame.Lib.Patricia
import OpenSesame.Utils.Crypto

/-! # `ledger/trie.cpp`: locations

A location is a byte string: a parity byte, then nibbles packed in pairs, the low half of the last byte being
zero when their number is odd. `CommonPrefix` and `NextBranch` work on the bytes; here they are shown to be
the longest common initial part and the next symbol of the nibble lists. -/

namespace OpenSesame

/-- `Location`: a parity byte followed by packed nibbles. -/
abbrev Location := Bytes

/-- A symbol of the trie's alphabet. -/
abbrev Nibble := Fin 16

def evenPrefix : UInt8 := 0x00
def oddPrefix : UInt8 := 0x01
def leafPrefix : UInt8 := 0x02

/-- The loop of `CommonPrefix` from its current index on: what it still appends, and the parity byte. -/
def commonPrefixLoop (odd1 odd2 : Bool) : Bytes → Bytes → Bytes × UInt8
  | c1 :: r1, c2 :: r2 =>
    if c1 &&& 0xf0 ≠ c2 &&& 0xf0 then ([], evenPrefix)
    else if r1 = [] ∧ odd1 = true then ([c1 &&& 0xf0], oddPrefix)
    else if r2 = [] ∧ odd2 = true then ([c1 &&& 0xf0], oddPrefix)
    else if c1 &&& 0x0f ≠ c2 &&& 0x0f then ([c1 &&& 0xf0], oddPrefix)
    else
      let rest := commonPrefixLoop odd1 odd2 r1 r2
      (c1 :: rest.1, rest.2)
  | _, _ => ([], evenPrefix)

def commonPrefix : Location → Location → Location
  | p1 :: r1, p2 :: r2 =>
    let out := commonPrefixLoop (p1 == oddPrefix) (p2 == oddPrefix) r1 r2
    out.2 :: out.1
  | _, _ => [evenPrefix]

def lowNibble (c : UInt8) : Nibble :=
  Fin.ofNat 16 (c &&& 0x0f).toNat

def highNibble (c : UInt8) : Nibble :=
  Fin.ofNat 16 ((c >>> 4) &&& 0x0f).toNat

/-- `Trie::NextBranch`; `none` where `at` throws. -/
def nextBranch (s1 s2 : Location) : Option Nibble := do
  let parity ← s1[0]?
  if parity = oddPrefix then
    let ch ← s2[s1.length - 1]?
    some (lowNibble ch)
  else
    let ch ← s2[s1.length]?
    some (highNibble ch)

def key2Location (key : Bytes) : Location :=
  evenPrefix :: key

/-! ### Nibble lists -/

def packByte (a b : Nibble) : UInt8 :=
  UInt8.ofNat (16 * a + b)

def pack : List Nibble → Bytes
  | [] => []
  | [a] => [packByte a 0]
  | a :: b :: r => packByte a b :: pack r

def parityByte (path : List Nibble) : UInt8 :=
  if path.length % 2 = 0 then evenPrefix else oddPrefix

def location (path : List Nibble) : Location :=
  parityByte path :: pack path

def nibbles (key : Bytes) : List Nibble :=
  key.flatMap fun c => [highNibble c, lowNibble c]

theorem packByte_and_f0 : ∀ a b : Nibble, packByte a b &&& 0xf0 = packByte a 0 := by
  decide +kernel

theorem packByte_and_0f : ∀ a b : Nibble, packByte a b &&& 0x0f = packByte 0 b := by
  decide +kernel

theorem lowNibble_packByte : ∀ a b : Nibble, lowNibble (packByte a b) = b := by
  decide +kernel

theorem highNibble_packByte : ∀ a b : Nibble, highNibble (packByte a b) = a := by
  decide +kernel

theorem packByte_nibbles (c : UInt8) : packByte (highNibble c) (lowNibble c) = c := by
  have h : ∀ x : Fin 256, packByte (highNibble ⟨⟨x⟩⟩) (lowNibble ⟨⟨x⟩⟩) = ⟨⟨x⟩⟩ := by decide +kernel
  exact h c.toBitVec.toFin

theorem packByte_inj {a b a' b' : Nibble} : packByte a b = packByte a' b' ↔ a = a' ∧ b = b' := by
  constructor
  · intro h
    exact ⟨by simpa only [highNibble_packByte] using congrArg highNibble h,
      by simpa only [lowNibble_packByte] using congrArg lowNibble h⟩
  · rintro ⟨rfl, rfl⟩
    rfl

theorem pack_nibbles (key : Bytes) : pack (nibbles key) = key := by
  induction key with
  | nil => rfl
  | cons c key ih => simpa [nibbles, pack, packByte_nibbles] using ih

theorem length_nibbles_eq (key : Bytes) : (nibbles key).length = 2 * key.length := by
  simp [nibbles, Nat.mul_comm]

theorem length_nibbles (key : Bytes) : (nibbles key).length % 2 = 0 := by
  rw [length_nibbles_eq]
  omega

theorem location_nibbles (key : Bytes) : location (nibbles key) = key2Location key := by
  simp [location, parityByte, length_nibbles, pack_nibbles, key2Location]

theorem length_pair_mod (x y : Nibble) (a : List Nibble) : (x :: y :: a).length % 2 = a.length % 2 := by
  rw [List.length_cons, List.length_cons]
  omega

theorem pack_inj : ∀ {a b : List Nibble}, a.length % 2 = b.length % 2 → pack a = pack b → a = b
  | [], [], _, _ => rfl
  | [], [_], h, _ => by simp at h
  | [], _ :: _ :: _, _, h => by simp [pack] at h
  | [_], [], h, _ => by simp at h
  | [x], [y], _, h => by simpa [pack, packByte_inj] using h
  | [_], y :: y' :: b, h, h' => by
    cases b with
    | nil => simp at h
    | cons z b => cases b <;> simp [pack] at h'
  | _ :: _ :: _, [], _, h => by simp [pack] at h
  | x :: x' :: a, [_], h, h' => by
    cases a with
    | nil => simp at h
    | cons z a => cases a <;> simp [pack] at h'
  | x :: x' :: a, y :: y' :: b, h, h' => by
    simp only [pack, List.cons.injEq, packByte_inj] at h'
    obtain ⟨⟨rfl, rfl⟩, h'⟩ := h'
    rw [length_pair_mod, length_pair_mod] at h
    rw [pack_inj h h']

theorem parityByte_eq_oddPrefix {a : List Nibble} : parityByte a = oddPrefix ↔ a.length % 2 = 1 := by
  unfold parityByte
  split
  · simp [evenPrefix, oddPrefix, *]
  · simp only [true_iff]
    omega

theorem location_inj {a b : List Nibble} : location a = location b ↔ a = b := by
  refine ⟨fun h => ?_, fun h => by rw [h]⟩
  simp only [location, List.cons.injEq] at h
  have hpar : a.length % 2 = 1 ↔ b.length % 2 = 1 := by
    rw [← parityByte_eq_oddPrefix, ← parityByte_eq_oddPrefix, h.1]
  exact pack_inj (by omega) h.2

/-! ### `CommonPrefix` and `NextBranch` on nibble lists -/

open Patricia (lcp)

theorem pack_eq_nil {a : List Nibble} : pack a = [] ↔ a = [] := by
  rcases a with _ | ⟨x, _ | ⟨y, a⟩⟩ <;> simp [pack]

theorem parityByte_cons_cons (x y : Nibble) (a : List Nibble) : parityByte (x :: y :: a) = parityByte a := by
  simp only [parityByte, length_pair_mod]

/-- The loop computes the packed common part; the flags say that the last byte holds one nibble. -/
theorem commonPrefixLoop_pack : ∀ (a b : List Nibble),
    commonPrefixLoop (a.length % 2 == 1) (b.length % 2 == 1) (pack a) (pack b) = (pack (lcp a b), parityByte (lcp a b))
  | [], b => by simp [pack, commonPrefixLoop, lcp, parityByte]
  | [x], [] => by simp [pack, commonPrefixLoop, lcp, parityByte]
  | x :: x' :: a, [] => by simp [pack, commonPrefixLoop, lcp, parityByte]
  | [x], [y] => by
    by_cases h : x = y <;> simp [pack, commonPrefixLoop, lcp, parityByte, packByte_and_f0, packByte_inj, h]
  | [x], y :: y' :: b => by
    by_cases h : x = y <;> simp [pack, commonPrefixLoop, lcp, parityByte, packByte_and_f0, packByte_inj, h]
  | x :: x' :: a, [y] => by
    by_cases h : x = y
    · by_cases ha : a = [] <;> simp [pack, commonPrefixLoop, lcp, parityByte, packByte_and_f0, h, pack_eq_nil, ha]
    · simp [pack, commonPrefixLoop, lcp, parityByte, packByte_and_f0, packByte_inj, h]
  | x :: x' :: a, y :: y' :: b => by
    have ih := commonPrefixLoop_pack a b
    have hend : ∀ c : List Nibble, ¬ (pack c = [] ∧ (c.length % 2 == 1) = true) := by
      rintro c ⟨hc, ho⟩
      rw [pack_eq_nil] at hc
      simp [hc] at ho
    by_cases h : x = y
    · by_cases h' : x' = y'
      · simp only [pack, commonPrefixLoop, lcp, length_pair_mod, h, h', ih, parityByte_cons_cons, hend,
          ne_eq, not_true_eq_false, ↓reduceIte]
      · simp [pack, commonPrefixLoop, lcp, h, h', packByte_and_f0, packByte_and_0f, packByte_inj, parityByte]
    · simp [pack, commonPrefixLoop, lcp, packByte_and_f0, packByte_inj, h, parityByte]

theorem commonPrefix_location (a b : List Nibble) : commonPrefix (location a) (location b) = location (lcp a b) := by
  have hflag : ∀ c : List Nibble, (parityByte c == oddPrefix) = (c.length % 2 == 1) := fun c => by
    rw [Bool.eq_iff_iff, beq_iff_eq, beq_iff_eq, parityByte_eq_oddPrefix]
  simp only [location, commonPrefix, hflag, commonPrefixLoop_pack]

theorem pack_getElem_next : ∀ (a : List Nibble) (i : Nibble) (r : List Nibble),
    (a.length % 2 = 0 → ∃ j, (pack (a ++ i :: r))[(pack a).length]? = some (packByte i j)) ∧
    (a.length % 2 = 1 → ∃ x, (pack (a ++ i :: r))[(pack a).length - 1]? = some (packByte x i) ∧ 0 < (pack a).length)
  | [], i, r => by
    refine ⟨fun _ => ?_, nofun⟩
    cases r with
    | nil => exact ⟨0, by simp [pack]⟩
    | cons j r => exact ⟨j, by simp [pack]⟩
  | [x], i, r => ⟨by simp, fun _ => ⟨x, by simp [pack]⟩⟩
  | x :: y :: a, i, r => by
    obtain ⟨he, ho⟩ := pack_getElem_next a i r
    refine ⟨fun h => ?_, fun h => ?_⟩
    · obtain ⟨j, hj⟩ := he (by rwa [length_pair_mod] at h)
      exact ⟨j, by simpa [pack] using hj⟩
    · obtain ⟨x', hx, hpos⟩ := ho (by rwa [length_pair_mod] at h)
      refine ⟨x', ?_, by simp [pack]⟩
      obtain ⟨m, hm⟩ : ∃ m, (pack a).length = m + 1 := ⟨(pack a).length - 1, by omega⟩
      simpa [pack, hm] using hx

theorem nextBranch_location (a : List Nibble) (i : Nibble) (r : List Nibble) :
    nextBranch (location a) (location (a ++ i :: r)) = some i := by
  obtain ⟨he, ho⟩ := pack_getElem_next a i r
  by_cases h : a.length % 2 = 1
  · obtain ⟨x, hx, hpos⟩ := ho h
    obtain ⟨m, hm⟩ : ∃ m, (pack a).length = m + 1 := ⟨(pack a).length - 1, by omega⟩
    rw [hm, Nat.add_sub_cancel] at hx
    simp [nextBranch, location, parityByte_eq_oddPrefix.mpr h, hm, hx, lowNibble_packByte]
  · obtain ⟨j, hj⟩ := he (by omega)
    have hp : parityByte a ≠ oddPrefix := fun e => h (parityByte_eq_oddPrefix.mp e)
    simp [nextBranch, location, hp, hj, highNibble_packByte]

/-- On the locations of nibble lists `CommonPrefix` is the longest common initial part, in either order of its
    arguments, and `NextBranch` the next nibble of the longer list; `Key2Location` gives such a location. -/
theorem nibble_paths (a b : List Nibble) :
    (∃ c, commonPrefix (location a) (location b) = location c ∧ c <+: a ∧ c <+: b ∧ ∀ d, d <+: a → d <+: b → d <+: c) ∧
    commonPrefix (location a) (location b) = commonPrefix (location b) (location a) ∧
    (∀ i r, b = a ++ i :: r → nextBranch (location a) (location b) = some i) ∧
    ∀ key, key2Location key = location (nibbles key) := by
  refine ⟨⟨lcp a b, commonPrefix_location a b, Patricia.lcp_prefix_left a b, Patricia.lcp_prefix_right a b,
    fun d => Patricia.prefix_lcp⟩, ?_, ?_, fun key => (location_nibbles key).symm⟩
  · rw [commonPrefix_location, commonPrefix_location, Patricia.lcp_comm]
  · rintro i r rfl
    exact nextBranch_location a i r

end OpenSesame
