import OpenSesame.Lib.Overlay

/-! # `utils/atom_map.h`: a map with a change buffer

A `Record` is its pointer, `none` for a record of type `DEL`: no function reads whether a live record is of
type `ADD` or `MOD`. A `Map` is its lookup function, an overlay of such records. Values are copied, never
shared: `GetValue` copies what it finds in `*data_`, and `Commit` clears the buffer whose pointers it hands
over. -/

namespace OpenSesame
open Overlay

/-- An `AtomMap`: its change buffer and the map `data_` points to. -/
structure AtomMap (K V : Type) where
  buff : Overlay K V
  data : Overlay K V

namespace AtomMap

variable {K V : Type}

/-- `Commit`: `DirectCommit` assigns the records one by one, `CopyCommit` to a copy that is swapped in. -/
def commit (m : AtomMap K V) : AtomMap K V :=
  { buff := empty, data := m.buff.merge m.data }

def clearChangeBuf (m : AtomMap K V) : AtomMap K V :=
  { m with buff := empty }

section Entries
variable [DecidableEq K]

/-- `GetValue`: what is found outside the buffer is copied into it. -/
def getValue (getFromDB : K → Option V) (m : AtomMap K V) (k : K) : Option V × AtomMap K V :=
  match m.buff k with
  | some r => (r, m)
  | none =>
    match m.data k with
    | some none => (none, m)
    | some (some v) => (some v, { m with buff := m.buff.put k (some v) })
    | none =>
      match getFromDB k with
      | none => (none, m)
      | some v => (some v, { m with buff := m.buff.put k (some v) })

def setValue (m : AtomMap K V) (k : K) (v : V) : AtomMap K V :=
  { m with buff := m.buff.put k (some v) }

def del (m : AtomMap K V) (k : K) : AtomMap K V :=
  { m with buff := m.buff.put k none }

/-- A change, through its pointer, of a value the buffer holds. -/
def alter (m : AtomMap K V) (k : K) (f : V → V) : AtomMap K V :=
  match m.buff k with
  | some (some v) => { m with buff := m.buff.put k (some (f v)) }
  | _ => m

end Entries

/-! ### An `AtomMap` in a stack

The maps of a stack of `AtomMap`s, each of which has the change buffer of the one before it as its data: layer
0 is the `stor_` of the outermost, layer `d + 1` the buffer of the `AtomMap` of depth `d`. -/

def ofLayers (L : ℕ → Overlay K V) (d : ℕ) : AtomMap K V :=
  { buff := L (d + 1), data := L d }

/-- The stack with the maps of depth `d` replaced. -/
def toLayers (L : ℕ → Overlay K V) (d : ℕ) (m : AtomMap K V) : ℕ → Overlay K V :=
  Function.update (Function.update L d m.data) (d + 1) m.buff

/-- What an `AtomMap` reads of a key: its buffer, then its data, then the database. -/
def near (base : K → Option V) (L : ℕ → Overlay K V) (d : ℕ) (k : K) : Option V :=
  (L (d + 1) k).getD ((L d k).getD (base k))

theorem toLayers_buff (L : ℕ → Overlay K V) (d : ℕ) (b : Overlay K V) :
    toLayers L d { buff := b, data := L d } = Function.update L (d + 1) b := by
  simp [toLayers]

theorem toLayers_same (L : ℕ → Overlay K V) (d : ℕ) : toLayers L d { buff := L (d + 1), data := L d } = L := by
  simp [toLayers]

theorem toLayers_commit (L : ℕ → Overlay K V) (d : ℕ) : toLayers L d (ofLayers L d).commit = fold L d := rfl

theorem toLayers_clearChangeBuf (L : ℕ → Overlay K V) (d : ℕ) :
    toLayers L d (ofLayers L d).clearChangeBuf = wipe L (d + 1) :=
  toLayers_buff L d empty

theorem near_of_alike {base : K → Option V} {L L' : ℕ → Overlay K V} (h : Overlay.Alike base L L') (d : ℕ) (k : K) :
    near base L' d k = near base L d k := by
  cases d with
  | zero => exact (h.level ∅).seen k
  | succ d => rw [near, near, h.above, h.above]

section Entries
variable [DecidableEq K]

theorem toLayers_put (L : ℕ → Overlay K V) (d : ℕ) (k : K) (r : Option V) :
    toLayers L d { buff := (L (d + 1)).put k r, data := L d } = record L (d + 1) k r :=
  toLayers_buff L d _

theorem toLayers_setValue (L : ℕ → Overlay K V) (d : ℕ) (k : K) (v : V) :
    toLayers L d ((ofLayers L d).setValue k v) = record L (d + 1) k (some v) :=
  toLayers_put L d k _

theorem toLayers_alter (L : ℕ → Overlay K V) (d : ℕ) (k : K) (f : V → V) :
    toLayers L d ((ofLayers L d).alter k f) = hold L (d + 1) k ((L (d + 1) k).join.map f) := by
  rcases h : L (d + 1) k with _ | _ | v
  · simpa [alter, ofLayers, h] using toLayers_same L d
  · simpa [alter, ofLayers, h] using toLayers_same L d
  · simpa [alter, ofLayers, h] using toLayers_put L d k _

theorem getValue_fst (base : K → Option V) (L : ℕ → Overlay K V) (d : ℕ) (k : K) :
    ((ofLayers L d).getValue base k).1 = near base L d k := by
  simp only [getValue, ofLayers, near]
  rcases L (d + 1) k with _ | r
  · rcases L d k with _ | _ | v
    · cases base k <;> rfl
    · rfl
    · rfl
  · rfl

/-- A key that is read is held by the buffer afterwards, with the value that was read; a key that is not found
leaves the stack alone. -/
theorem toLayers_getValue (base : K → Option V) (L : ℕ → Overlay K V) (d : ℕ) (k : K) :
    toLayers L d ((ofLayers L d).getValue base k).2 = hold L (d + 1) k (near base L d k) := by
  have hput (v : V) := toLayers_put L d k (some v)
  have hsame := toLayers_same L d
  rcases hb : L (d + 1) k with _ | _ | v
  · rcases hd : L d k with _ | _ | v
    · rcases hbase : base k with _ | v
      · simpa [getValue, ofLayers, near, hb, hd, hbase] using hsame
      · simpa [getValue, ofLayers, near, hb, hd, hbase] using hput v
    · simpa [getValue, ofLayers, near, hb, hd] using hsame
    · simpa [getValue, ofLayers, near, hb, hd] using hput v
  · simpa [getValue, ofLayers, near, hb] using hsame
  · simpa [getValue, ofLayers, near, hb, record, put_eq_self hb] using hsame

end Entries
end AtomMap
end OpenSesame
