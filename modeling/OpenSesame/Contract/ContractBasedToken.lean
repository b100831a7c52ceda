import Mathlib.Data.Rat.Defs
import OpenSesame.Contract.Storage
import OpenSesame.Lib.Frames

/-! # `contract/contractBasedToken.js`

A token in the metadata of one contract: the balance of an account is under its address, an allowance under the two
addresses. `none` stands for a script that throws, after which nothing of the call is left. An amount is given to
functions of the host only, which read it up to the first NUL. -/

namespace OpenSesame
open Text
open ScriptUtils (toCString)

namespace ContractBasedToken

structure GlobalAttribute where
  totalSupply : String
  name : String
  symbol : String
  version : String
  decimals : ℚ

structure Host where
  addressCheck : Address → Bool
  /-- The number of bytes of `JSON.stringify`. -/
  jsonSize : GlobalAttribute → ℕ

structure Params where
  totalSupply : String
  name : String
  symbol : String
  decimals : ℚ

inductive Input where
  | transfer (dest : Address) (value : String)
  | transferFrom (source dest : Address) (value : String)
  | approve (spender : Address) (value : String)
  /-- `<Main interface passes an invalid operation type>` -/
  | invalid

structure Call where
  sender : Address
  input : Input

end ContractBasedToken

structure ContractBasedToken where
  storage : Storage ContractBasedToken.GlobalAttribute := ∅
  logs : List (List String) := []

namespace ContractBasedToken

def globalAttributeKey : String := "global_attribute"

def makeAllowanceKey (owner spender : Address) : String := "allow_" ++ owner ++ "_to_" ++ spender

def store (h : Host) (key : String) (value : Value GlobalAttribute) (s : ContractBasedToken) :
    Option ContractBasedToken := do
  let storage ← s.storage.store h.jsonSize key value
  return { s with storage := storage }

def tlog (texts : List String) (s : ContractBasedToken) : ContractBasedToken := { s with logs := s.logs ++ [texts.map toCString] }

/-- The value is the text of a number greater than 0. -/
def checkValue (value : String) : Option Unit := do
  guard (stoI64Check value = true)
  let sign ← int64Compare value "0"
  guard (sign > 0)

def received (value : String) : Option (Value GlobalAttribute) → Option String
  | none => some value
  | some (.text old) => int64Add old value
  | some (.json _) => none

def loadText (key : String) (s : ContractBasedToken) : Option String := (s.storage.load key).bind Value.text?

def approve (h : Host) (sender spender : Address) (value : String) (s : ContractBasedToken) :
    Option ContractBasedToken := do
  guard (h.addressCheck (toCString spender) = true)
  checkValue value
  let s ← store h (makeAllowanceKey sender spender) (.text value) s
  return tlog ["approve", sender, spender, value] s

def allowance (h : Host) (owner spender : Address) (s : ContractBasedToken) : Option String := do
  guard (h.addressCheck (toCString owner) = true)
  guard (h.addressCheck (toCString spender) = true)
  loadText (makeAllowanceKey owner spender) s

def transfer (h : Host) (sender dest : Address) (value : String) (s : ContractBasedToken) :
    Option ContractBasedToken := do
  guard (h.addressCheck (toCString dest) = true)
  checkValue value
  if sender = dest then
    return tlog ["transfer", sender, dest, value] s
  let senderValue ← loadText sender s
  let order ← int64Compare senderValue value
  guard (order ≥ 0)
  let destValue ← received value (s.storage.load dest)
  let s ← store h dest (.text destValue) s
  let senderValue ← int64Sub senderValue value
  let s ← store h sender (.text senderValue) s
  return tlog ["transfer", sender, dest, value] s

def transferFrom (h : Host) (sender source dest : Address) (value : String) (s : ContractBasedToken) :
    Option ContractBasedToken := do
  guard (h.addressCheck (toCString source) = true)
  guard (h.addressCheck (toCString dest) = true)
  checkValue value
  if source = dest then
    return tlog ["transferFrom", sender, source, dest, value] s
  let sourceValue ← loadText source s
  let order ← int64Compare sourceValue value
  guard (order ≥ 0)
  let allowValue ← allowance h source sender s
  let order ← int64Compare allowValue value
  guard (order ≥ 0)
  let destValue ← received value (s.storage.load dest)
  let s ← store h dest (.text destValue) s
  let sourceValue ← int64Sub sourceValue value
  let s ← store h source (.text sourceValue) s
  let allowValue ← int64Sub allowValue value
  let s ← store h (makeAllowanceKey source sender) (.text allowValue) s
  return tlog ["transferFrom", sender, source, dest, value] s

def Params.globalAttribute (params : Params) : GlobalAttribute where
  totalSupply := params.totalSupply
  name := params.name
  symbol := params.symbol
  version := "ATP20"
  decimals := params.decimals

/-- `init`, in the transaction that creates the contract. -/
def init (h : Host) (sender : Address) (params : Params) : Option ContractBasedToken := do
  guard (stoI64Check params.totalSupply = true ∧ amount params.totalSupply > 0 ∧ params.name.length > 0 ∧
    params.symbol.length > 0 ∧ params.decimals ≥ 0)
  let s ← store h globalAttributeKey (.json params.globalAttribute) {}
  store h sender (.text params.globalAttribute.totalSupply) s

def main (h : Host) (s : ContractBasedToken) (m : Call) : Option ContractBasedToken :=
  match m.input with
  | .transfer dest value => transfer h m.sender dest (toCString value) s
  | .transferFrom source dest value => transferFrom h m.sender source dest (toCString value) s
  | .approve spender value => approve h m.sender spender (toCString value) s
  | .invalid => none

/-- What a lookup that falls back finds; the logs are those of the transactions. -/
def back (last now : ContractBasedToken) : ContractBasedToken := { last with logs := now.logs }

/-- A history of the contract: calls that succeed, lookups that fall back and ledgers that are closed. -/
def run (h : Host) : Ledgered ContractBasedToken → List (LedgerEvent Call) → Option (Ledgered ContractBasedToken) :=
  Ledgered.run back fun _ => main h

end ContractBasedToken
end OpenSesame
