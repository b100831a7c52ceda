import OpenSesame.Lib.Wire
import OpenSesame.Ledger.Location

/-! # `proto/merkeltrie.proto`: the stored form of a trie node

A `Node` message repeats 17 `Child` messages: one for each nibble, and the node's own leaf at index 16. -/

namespace OpenSesame

inductive ChildType
  | none
  | inner
  | leaf
  deriving DecidableEq, Repr

structure Child where
  sublocation : Bytes := []
  hash : Bytes := []
  childtype : ChildType := .none
  deriving DecidableEq, Repr

/-- A `Node` message of 17 children: `children(0)` to `children(15)`, and `children(16)`. -/
structure Node where
  branch : Nibble → Child := fun _ => {}
  own : Child := {}

namespace Child

def typeField : ChildType → List Wire.Field
  | .none => []
  | .inner => [⟨3, .num 1⟩]
  | .leaf => [⟨3, .num 2⟩]

/-- The fields the message writes: those that differ from their default. -/
def fields (c : Child) : List Wire.Field :=
  (if c.sublocation = [] then [] else [⟨1, .bytes c.sublocation⟩]) ++
  ((if c.hash = [] then [] else [⟨2, .bytes c.hash⟩]) ++ typeField c.childtype)

def serialize (c : Child) : Bytes :=
  Wire.write c.fields

/-- One field read into the message; a field of another number is skipped. -/
def merge (c : Child) : Wire.Field → Option Child
  | ⟨1, .bytes b⟩ => some { c with sublocation := b }
  | ⟨2, .bytes b⟩ => some { c with hash := b }
  | ⟨3, .num 0⟩ => some { c with childtype := .none }
  | ⟨3, .num 1⟩ => some { c with childtype := .inner }
  | ⟨3, .num 2⟩ => some { c with childtype := .leaf }
  | ⟨f, _⟩ => if f = 1 ∨ f = 2 ∨ f = 3 then none else some c

def parse (bs : Bytes) : Option Child := do
  let fs ← Wire.read bs
  fs.foldlM merge {}

theorem parse_serialize (c : Child) : parse c.serialize = some c := by
  obtain ⟨sub, hash, type⟩ := c
  by_cases hs : sub = [] <;> by_cases hh : hash = [] <;> cases type <;>
    simp [parse, serialize, fields, typeField, merge, hs, hh]

end Child

namespace Node

/-- The repeated field `children`. -/
def children (n : Node) : List Child :=
  List.ofFn n.branch ++ [n.own]

def serialize (n : Node) : Bytes :=
  Wire.write (n.children.map fun c => ⟨1, .bytes c.serialize⟩)

def ofChildren (cs : List Child) : Option Node :=
  if h : cs.length = 17 then
    some { branch := fun i => cs.get ⟨i, by omega⟩, own := cs.get ⟨16, by omega⟩ }
  else none

def parseChild : Wire.Field → Option Child
  | ⟨_, .bytes b⟩ => Child.parse b
  | ⟨_, .num _⟩ => none

/-- `ParseFromString`, where it yields the 17 children every stored node has. -/
def parse (bs : Bytes) : Option Node := do
  let fs ← Wire.read bs
  let cs ← (fs.filter fun f => f.number == 1).mapM parseChild
  ofChildren cs

theorem ofChildren_children (n : Node) : ofChildren n.children = some n := by
  have hlen : n.children.length = 17 := by simp [children]
  have hown : n.children.get ⟨16, by omega⟩ = n.own := by simp [children]
  have hbranch : ∀ i : Nibble, n.children.get ⟨i, by omega⟩ = n.branch i := by
    intro i
    have hi : i.val < (List.ofFn n.branch).length := by simp
    simp only [List.get_eq_getElem, children, List.getElem_append_left hi, List.getElem_ofFn, Fin.eta]
  simp only [ofChildren, hlen, ↓reduceDIte, hown, hbranch]

theorem parse_serialize (n : Node) : parse n.serialize = some n := by
  have hfilter : ∀ cs : List Child, (cs.map fun c => (⟨1, .bytes c.serialize⟩ : Wire.Field)).filter (fun f => f.number == 1)
      = cs.map fun c => ⟨1, .bytes c.serialize⟩ := fun cs => List.filter_eq_self.mpr (by simp)
  have hparse : ∀ cs : List Child, (cs.map fun c => (⟨1, .bytes c.serialize⟩ : Wire.Field)).mapM parseChild = some cs := by
    intro cs
    induction cs with
    | nil => rfl
    | cons c cs ih => simp [parseChild, Child.parse_serialize, ih]
  simp [parse, serialize, hfilter, hparse, ofChildren_children]

/-- The branches that lead somewhere. -/
def live (n : Node) : List Nibble :=
  (List.finRange 16).filter fun i => (n.branch i).childtype != .none

/-- `branch_count` of `update_hash`. -/
def branchCount (n : Node) : ℕ :=
  (if n.own.childtype = .none then 0 else 1) + n.live.length

/-- `children(onlybranch)` of `update_hash`: the last child seen to lead somewhere. -/
def onlyBranch (n : Node) : Child :=
  match n.live.getLast? with
  | some i => n.branch i
  | none => n.own

end Node
end OpenSesame
