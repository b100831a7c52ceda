import OpenSesame.Ledger.TrieNode

/-! # `ledger/trie.cpp` and `ledger/kv_trie.cpp`

The in-memory tree is a value: a node has one owner, so a write through a pointer is a new tree. Recursions
that may load a child from the database carry fuel, and `none` stands for a run that throws (`at` out of
range), exits the process (a record that is not there) or does not end. -/

namespace OpenSesame
open Function

abbrev Db := Bytes → Option Bytes

inductive WriteOp
  | put (key value : Bytes)
  | delete (key : Bytes)
  deriving DecidableEq, Repr

abbrev WriteBatch := List WriteOp

def WriteOp.apply (db : Db) : WriteOp → Db
  | .put key value => update db key (some value)
  | .delete key => update db key none

/-- `WriteBatch`: the entries in their order. -/
def writeBatch (db : Db) (batch : WriteBatch) : Db :=
  batch.foldl WriteOp.apply db

/-- The data of a `NodeFrm` apart from its child pointers. -/
structure NodeFrm where
  location : Location
  info : Node := {}
  modified : Bool := true
  leafDeleted : Bool := false
  leaf : Option Bytes := none

/-- `NodeFrm::POINTER`. -/
inductive Pointer
  | null
  | node (frm : NodeFrm) (children : Nibble → Pointer)

/-- `modified_` of the node pointed to. -/
def Pointer.modified : Pointer → Bool
  | .null => false
  | .node frm _ => frm.modified

def NodeFrm.setValue (frm : NodeFrm) (v : Bytes) : NodeFrm :=
  { frm with
    modified := true
    leafDeleted := false
    leaf := some v
    info := { frm.info with own := { frm.info.own with childtype := .leaf, sublocation := frm.location } } }

def NodeFrm.markReopensesame (frm : NodeFrm) : NodeFrm :=
  { frm with
    modified := true
    leafDeleted := true
    leaf := none
    info := { frm.info with own := {} } }

def NodeFrm.copyChild (frm : NodeFrm) (branch : Nibble) (child : Child) : NodeFrm :=
  { frm with info := { frm.info with branch := update frm.info.branch branch child } }

/-- What `NodeFrm::SetChild` does to the data: the child's location is entered. -/
def NodeFrm.setChild (frm : NodeFrm) (branch : Nibble) (child : Location) : NodeFrm :=
  { frm with modified := true }.copyChild branch { frm.info.branch branch with sublocation := child }

def NodeFrm.setChildType (frm : NodeFrm) (branch : Nibble) (type : ChildType) : NodeFrm :=
  frm.copyChild branch { frm.info.branch branch with childtype := type }

def Pointer.bare (frm : NodeFrm) : Pointer :=
  .node frm fun _ => .null

/-- `rootl`. -/
def rootLocation : Location := [0]

section
variable (hashCrypto : Bytes → Bytes) (keyPrefix : Bytes)

def location2DBkey (location : Location) (leaf : Bool) : Bytes :=
  keyPrefix ++ if leaf then location.set 0 leafPrefix else location

/-- `KVTrie::storage_load`: the outer `none` is a record that does not parse. -/
def storageLoad (db : Db) (location : Location) : Option (Option Node) :=
  match db (location2DBkey keyPrefix location false) with
  | none => some none
  | some buff => (Node.parse buff).map some

def storageGetLeaf (db : Db) (location : Location) : Option Bytes :=
  db (location2DBkey keyPrefix location true)

/-- `Trie::ChildMayFromDB`: the pointer that stands at `children_[branch]` afterwards. -/
def childMayFromDB (db : Db) (frm : NodeFrm) (children : Nibble → Pointer) (branch : Nibble) : Option Pointer :=
  match children branch with
  | .node f c => some (.node f c)
  | .null =>
    let chd := frm.info.branch branch
    match chd.childtype with
    | .none => some .null
    | .leaf => some (.bare { location := chd.sublocation, modified := false, info := { own := chd } })
    | .inner => do
      let found ← storageLoad keyPrefix db chd.sublocation
      let info ← found
      some (.bare { location := chd.sublocation, modified := false, info := info })

/-! ### The operations -/

/-- `Trie::SetItem`: the return value and the node after the call. -/
def setItem (db : Db) (location : Location) (data : Bytes) : ℕ → Pointer → Option (Bool × Pointer)
  | 0, _ => none
  | _, .null => none
  | fuel + 1, .node frm0 children =>
    let frm := { frm0 with modified := true }
    if frm.location = location then some (false, .node (frm.setValue data) children)
    else do
      let common := commonPrefix frm.location location
      let branch ← nextBranch common location
      let node2 ← childMayFromDB keyPrefix db frm children branch
      let child2 := frm.info.branch branch
      let newnode := ({ location := location } : NodeFrm).setValue data
      match node2 with
      | .null =>
        some (true, .node ((frm.setChild branch location).setChildType branch .leaf)
          (update children branch (.bare newnode)))
      | .node frm2 children2 =>
        let newcommon := commonPrefix location frm2.location
        if newcommon = frm2.location then do
          let r ← setItem db location data fuel (.node frm2 children2)
          some (r.1, .node frm (update children branch r.2))
        else if newcommon = location then do
          let b1 ← nextBranch newcommon frm2.location
          let newnode := (newnode.setChild b1 frm2.location).copyChild b1 child2
          some (true, .node ((frm.setChild branch location).setChildType branch .inner) (update children branch
              (.node newnode (update (fun _ => .null) b1 (.node frm2 children2)))))
        else do
          let b1 ← nextBranch newcommon location
          let b2 ← nextBranch newcommon frm2.location
          let mnode := ((({ location := newcommon } : NodeFrm).setChild b1 location).setChild b2 frm2.location).copyChild
            b2 child2
          some (true, .node (frm.setChild branch newcommon) (update children branch
              (.node mnode (update (update (fun _ => .null) b1 (.bare newnode)) b2 (.node frm2 children2)))))

def deleteItem (db : Db) (location : Location) : ℕ → Pointer → Option (Bool × Pointer)
  | 0, _ => none
  | _, .null => none
  | fuel + 1, .node frm children =>
    if frm.location.length > location.length then some (false, .node frm children)
    else if location = frm.location then some (true, .node frm.markReopensesame children)
    else do
      let common := commonPrefix frm.location location
      let branch ← nextBranch common location
      let node2 ← childMayFromDB keyPrefix db frm children branch
      match node2 with
      | .null => some (false, .node frm children)
      | .node frm2 children2 =>
        let loaded := update children branch (.node frm2 children2)
        if frm2.location ≠ commonPrefix frm2.location location then some (false, .node frm loaded)
        else do
          let r ← deleteItem db location fuel (.node frm2 children2)
          some (r.1, .node { frm with modified := frm.modified || r.1 } (update loaded branch r.2))

/-- `Trie::Exists`; the node after the call holds the children that were loaded. -/
def existsKey (db : Db) (key : Location) : ℕ → Pointer → Option (Bool × Pointer)
  | 0, _ => none
  | _, .null => none
  | fuel + 1, .node frm children =>
    if frm.location = key then some (true, .node frm children)
    else do
      let branch ← nextBranch (commonPrefix frm.location key) key
      let chd := frm.info.branch branch
      if chd.childtype = .none then some (false, .node frm children)
      else if commonPrefix chd.sublocation key ≠ chd.sublocation then some (false, .node frm children)
      else do
        let child ← childMayFromDB keyPrefix db frm children branch
        let r ← existsKey db key fuel child
        some (r.1, .node frm (update children branch r.2))

/-- The `switch` of `StorageAssociated` on a child, where `inner` is the call on its location. A leaf that is
    not there leaves the string empty. -/
def associatedChild (db : Db) (chd : Child) (inner : Option (List Bytes)) : Option (List Bytes) :=
  match chd.childtype with
  | .none => some []
  | .inner => inner
  | .leaf => some [(storageGetLeaf keyPrefix db chd.sublocation).getD []]

/-- `Trie::StorageAssociated`: what it appends to the result. -/
def storageAssociated (db : Db) : ℕ → Location → Option (List Bytes)
  | 0, _ => none
  | fuel + 1, location => do
    let found ← storageLoad keyPrefix db location
    match found with
    | none => some []
    | some info => do
      let own := if info.own.childtype = .leaf then [(storageGetLeaf keyPrefix db location).getD []] else []
      let below ← (List.finRange 16).mapM fun i =>
        associatedChild keyPrefix db (info.branch i) (storageAssociated db fuel (info.branch i).sublocation)
      some (own ++ below.flatten)

def getAllItem (db : Db) (location : Location) : ℕ → Location → Option (List Bytes)
  | 0, _ => none
  | fuel + 1, node => do
    let found ← storageLoad keyPrefix db node
    match found with
    | none => some []
    | some info =>
      let common := commonPrefix node location
      if common = location then storageAssociated keyPrefix db fuel node
      else if common = node then do
        let nextbranch ← nextBranch common location
        getAllItem db location fuel (info.branch nextbranch).sublocation
      else some []

/-- `Trie::getNode`, where the inner `none` is `protocol::Node()`; the node after the call holds the children
    that were loaded. -/
def getNode (db : Db) (location : Location) : ℕ → Pointer → Option (Option Node × Pointer)
  | 0, _ => none
  | _, .null => none
  | fuel + 1, .node frm children =>
    if frm.location = location then some (some frm.info, .node frm children)
    else do
      let branch ← nextBranch (commonPrefix location frm.location) location
      let child ← childMayFromDB keyPrefix db frm children branch
      match child with
      | .null => some (none, .node frm children)
      | .node f c => do
        let r ← getNode db location fuel (.node f c)
        some (r.1, .node frm (update children branch r.2))

/-- The leaf part of `update_hash`: `children(16)` and what is written for the leaf. -/
def updateLeaf (frm : NodeFrm) : Child × WriteBatch :=
  if frm.leafDeleted then ({}, [.delete (location2DBkey keyPrefix frm.location true)])
  else match frm.leaf with
    | some v => (⟨frm.location, hashCrypto v, .leaf⟩, [.put (location2DBkey keyPrefix frm.location true) v])
    | none => (frm.info.own, [])

/-- The last part of `update_hash`: the node's record is kept or removed, and the parent's entry for it. -/
def summarize (location : Location) (info : Node) : Child × WriteBatch :=
  if info.branchCount = 0 ∧ location ≠ rootLocation then
    ({}, [.delete (location2DBkey keyPrefix location false)])
  else if info.branchCount = 1 ∧ location ≠ rootLocation then
    (info.onlyBranch, [.delete (location2DBkey keyPrefix location false)])
  else
    (⟨location, hashCrypto info.serialize, .inner⟩, [.put (location2DBkey keyPrefix location false) info.serialize])

/-- `Trie::update_hash`: the entry for the parent, the node after the call and what it adds to the batch. -/
def updateHashNode : Pointer → Child × Pointer × WriteBatch
  | .null => ({}, .null, [])
  | .node frm children =>
    let own := updateLeaf hashCrypto keyPrefix frm
    let result := fun i => updateHashNode (children i)
    let info : Node :=
      { branch := fun i => if (children i).modified then (result i).1 else frm.info.branch i
        own := own.1 }
    let below := (List.finRange 16).flatMap fun i => if (children i).modified then (result i).2.2 else []
    let top := summarize hashCrypto keyPrefix frm.location info
    (top.1, .node { frm with info, modified := false }
        (fun i => if (children i).modified then (result i).2.1 else children i),
      own.2 ++ (below ++ top.2))

def release : Pointer → ℤ → Pointer
  | .null, _ => .null
  | .node frm children, depth => .node frm fun i => if depth ≤ 0 then .null else release (children i) (depth - 1)

/-- `KVTrie::Load`, by the number of levels still to load. -/
def load (db : Db) : ℕ → Pointer → Option Pointer
  | 0, p => some p
  | _, .null => some .null
  | levels + 1, .node frm children => do
    let loaded ← (List.finRange 16).foldlM (fun ch i => do
      let child ← childMayFromDB keyPrefix db frm ch i
      let child ← load db levels child
      some (update ch i child)) children
    some (.node frm loaded)

/-- The members of `KVTrie` that change. -/
structure KVTrie where
  root : Pointer
  rootHash : Bytes
  batch : WriteBatch

/-- `KVTrie::Init` with an empty batch. -/
def KVTrie.init (db : Db) (depth : ℤ) : Option KVTrie := do
  let found ← storageLoad keyPrefix db rootLocation
  match found with
  | none => some ⟨.bare { location := rootLocation }, [], []⟩
  | some info => do
    let root ← load keyPrefix db (depth + 1).toNat (.bare { location := rootLocation, info })
    some ⟨root, [], []⟩

/-- Enough for every path: a step down makes the location longer by a nibble at least. -/
def pathFuel (location : Location) : ℕ :=
  2 * location.length

def KVTrie.set (t : KVTrie) (db : Db) (key value : Bytes) : Option (Bool × KVTrie) := do
  let r ← setItem keyPrefix db (key2Location key) value (pathFuel (key2Location key)) t.root
  some (r.1, { t with root := r.2 })

def KVTrie.delete (t : KVTrie) (db : Db) (key : Bytes) : Option (Bool × KVTrie) := do
  let r ← deleteItem keyPrefix db (key2Location key) (pathFuel (key2Location key)) t.root
  some (r.1, { t with root := r.2 })

/-- `Trie::Get`: the value, if the call returns true. -/
def KVTrie.get (t : KVTrie) (db : Db) (key : Bytes) : Option (Option Bytes × KVTrie) := do
  let r ← existsKey keyPrefix db (key2Location key) (pathFuel (key2Location key)) t.root
  some (if r.1 then storageGetLeaf keyPrefix db (key2Location key) else none, { t with root := r.2 })

/-- `Trie::GetAll`: the values. -/
def getAll (db : Db) (fuel : ℕ) (key : Bytes) : Option (List Bytes) :=
  getAllItem keyPrefix db (key2Location key) fuel (key2Location [])

/-- `lc` of `Trie::GetNode`: the empty location is read as the root's. -/
def givenLocation (location : Location) : Location :=
  if location = [] then [0] else location

def KVTrie.getNode (t : KVTrie) (db : Db) (fuel : ℕ) (location : Location) : Option (Option Node × KVTrie) := do
  let r ← OpenSesame.getNode keyPrefix db (givenLocation location) fuel t.root
  some (r.1, { t with root := r.2 })

def KVTrie.updateHash (t : KVTrie) : KVTrie :=
  let r := updateHashNode hashCrypto keyPrefix t.root
  { root := r.2.1, rootHash := r.1.hash, batch := t.batch ++ r.2.2 }

/-- `KVTrie::AddToDB`, when the write succeeds. -/
def KVTrie.addToDB (t : KVTrie) (db : Db) : KVTrie × Db :=
  ({ t with batch := [] }, writeBatch db t.batch)

def KVTrie.freeMemory (t : KVTrie) (depth : ℤ) : KVTrie :=
  { t with root := release t.root depth }

end
end OpenSesame
