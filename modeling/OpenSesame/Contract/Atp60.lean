import OpenSesame.Contract.Storage
import OpenSesame.Lib.Frames

/-! # `contract/atp60.js`

Tokens of stock keeping units, in tranches. Everything is in the metadata of the contract, under keys that are put
together from texts. `none` stands for a script that throws, after which nothing of the call is left. Parameters
that have to be texts are texts here; the fields of records that no method reads are left out. Of an amount all readers
are functions of the host, which read what is before the first NUL, so `main` keeps that much of it. -/

namespace OpenSesame
open Text
open ScriptUtils (toCString)
open Strings (safeStoi64)

namespace Atp60

structure Sku where
  defaultTrancheId : Option String
  totalSupply : String
  authorizers : List Address
  deriving DecidableEq

structure Pages where
  pages : ℤ
  value : ℤ
  deriving DecidableEq

structure Acceptance where
  publicKey : String
  period : String
  deriving DecidableEq

structure Redemption where
  acceptanceId : String
  status : ℕ
  sendTime : Option Int64
  deriving DecidableEq

structure Dispute where
  controller : Address
  status : ℕ
  deriving DecidableEq

inductive Record where
  | seller (address : Address)
  | sku (sku : Sku)
  | pages (pages : Pages)
  | items (items : List String)
  | acceptance (acceptance : Acceptance)
  | redemption (redemption : Redemption)
  | dispute (dispute : Dispute)
  /-- A record that no method reads: of the contract, a document, a spu, a tranche, an evidence. -/
  | unread
  deriving DecidableEq

structure Host where
  addressCheck : Address → Bool
  /-- `Utils.toAddress` of a public key -/
  toAddress : String → Option Address
  /-- The number of bytes of `JSON.stringify`. -/
  jsonSize : Record → ℕ
  /-- The `length` of `JSON.stringify` of a page. -/
  itemsLength : List String → ℕ

structure Context where
  txSender : Address
  msgSender : Address
  blockTime : Int64
  funded : Address → Bool

abbrev Method := StateT (Storage Record) Option

variable (h : Host) (c : Context)

def throw {α : Type} : Method α := fun _ => none

def assert (p : Prop) [Decidable p] : Method Unit := if p then pure () else throw

def call {α : Type} (o : Option α) : Method α := fun s => o.map fun a => (a, s)

def load (key : String) : Method (Option (Value Record)) := fun s => some (s.load key, s)

def store (key : String) (value : Value Record) : Method Unit :=
  fun s => (s.store h.jsonSize key value).map fun t => ((), t)

def del (key : String) : Method Unit := fun s => (s.del key).map fun t => ((), t)

def joined : List String → String
  | [] => ""
  | [a] => a
  | a :: l => a ++ "_" ++ joined l

/-- `_makeKey`; what is undefined is not in the list. -/
def makeKey (key : String) (parts : List String) : String := key ++ joined parts

namespace keys

def sel : String := "seller"
def crt : String := "contract"
def doc : String := "document_"
def docspgs : String := "documents_pages"
def docspg : String := "documents_page_"
def spu : String := "spu_"
def trn : String := "tranche_"
def sku : String := "sku_token_"
def skutrnspy : String := "sku_tranche_supply_"
def skutrnspgs : String := "sku_tranches_pages_"
def skutrnspg : String := "sku_tranches_page_"
def skuacpspgs : String := "sku_acceptances_pages_"
def skuacpspg : String := "sku_acceptances_page_"
def trnskuspgs : String := "tranche_skus_pages_"
def trnskuspg : String := "tranche_skus_page_"
def spuskuspgs : String := "spu_skus_pages_"
def spuskuspg : String := "spu_skus_page_"
def skuauth : String := "sku_authorization_"
def ble : String := "balance_"
def bletrn : String := "balance_tranche_"
def bletrnspgs : String := "balance_tranches_pages_"
def bletrnspg : String := "balance_tranches_page_"
def acp : String := "acceptance_"
def alw : String := "allowance_"
def repn : String := "redemption_"
def dpt : String := "dispute_"
def evi : String := "evidence_"

end keys

/-- The `length` of a text of the script, in units of 16 bits. -/
def length (s : String) : ℕ := (s.toList.map fun c => if c.toNat < 0x10000 then 1 else 2).sum

/-- `_checkStr` of a text. -/
def checkStr (var : String) (minLen maxLen : ℕ) : Bool := minLen ≤ length var && length var ≤ maxLen

/-- `_checkStr` of what may be undefined, from the length 0 on. -/
def checkStr0 (var : Option String) (maxLen : ℕ) : Bool := var.all fun s => length s ≤ maxLen

/-- `_checkJSNArr` from the length 0 on, and `_checkArrayItem`. -/
def checkArray (arr : Option (List String)) (maxSize minLen maxLen : ℕ) : Bool :=
  arr.all fun l => l.length ≤ maxSize && l.all fun s => checkStr s minLen maxLen

def checkPositive (val : String) : Bool := (safeStoi64 val).any fun n => decide (0 < n)

def checkInt (var : String) (min max : Int64) : Bool := (safeStoi64 var).any fun n => decide (min ≤ n ∧ n ≤ max)

def checkAddr (a : Address) : Bool := h.addressCheck a && c.funded a

def checkExist (key : String) : Method (Value Record) := do
  let value ← load key
  call value

def checkNotExist (key : String) : Method Unit := do
  let value ← load key
  assert (value = none)

def checkIsSeller (a : Address) : Method Bool := do
  let value ← checkExist keys.sel
  match value with
  | .json (.seller address) => return address == a
  | _ => throw

def loadSku (skuId : String) : Method Sku := do
  let value ← checkExist (makeKey keys.sku [skuId])
  match value with
  | .json (.sku sku) => return sku
  | _ => throw

def checkTranche (trnId dftTrnId : Option String) (isDft : Option Bool) : Method String :=
  match trnId with
  | none => return "0"
  | some trnId => do
    assert (checkStr trnId 1 32)
    match isDft with
    | some true => assert (dftTrnId = none ∨ dftTrnId = some trnId)
    | some false => assert (dftTrnId = none ∨ dftTrnId ≠ some trnId)
    | none => pure ()
    return trnId

/-! ### Lists in pages -/

def checkAddArrayItem (isAdd : Bool) (id : String) (key : String) : Method ℤ := do
  let value ← load key
  match value with
  | none =>
    if isAdd then store h key (.json (.items [id]))
    return -1
  | some (.json (.items items)) =>
    if h.itemsLength items + length id > 256000 then return -3
    else if id ∈ items then return -2
    else
      if isAdd then store h key (.json (.items (items ++ [id])))
      return -1
  | some _ => throw

def checkSubArrayItem (isSub : Bool) (id : String) (key : String) : Method ℤ := do
  let value ← load key
  match value with
  | none => return -1
  | some (.json (.items items)) =>
    if id ∈ items then
      if isSub then store h key (.json (.items (items.erase id)))
      return 0
    else return -1
  | some _ => throw

def pageKey (keyPg : String) (parts : List String) (i : ℤ) : String := makeKey keyPg (parts ++ [toString i])

/-- The loop of `_checkAddPageItem` over the pages from `i` on: where it stops, and the last result. -/
def addLoop (isAdd : Bool) (id keyPg : String) (parts : List String) : ℕ → ℤ → ℤ → Method (ℤ × ℤ)
  | 0, i, ret => return (i, ret)
  | left + 1, i, _ => do
    let ret ← checkAddArrayItem h isAdd id (pageKey keyPg parts i)
    if ret = -2 ∨ isAdd = true ∧ ret = -1 then return (i, ret)
    else addLoop isAdd id keyPg parts left (i + 1) ret

def checkAddPageItem (isAdd : Bool) (pgcnt : ℤ) (id keyPg : String) (parts : List String) : Method ℤ := do
  let (i, ret) ← addLoop h isAdd id keyPg parts pgcnt.toNat 0 (-1)
  if i = pgcnt ∧ isAdd = true ∧ pgcnt + 1 ≤ 2000 then
    let _ ← checkAddArrayItem h isAdd id (pageKey keyPg parts pgcnt)
    return pgcnt + 1
  else return ret

/-- The loop of `_checkSubPageItem`. -/
def subLoop (isSub : Bool) (id keyPg : String) (parts : List String) : ℕ → ℤ → ℤ → Method ℤ
  | 0, _, ret => return ret
  | left + 1, i, _ => do
    let ret ← checkSubArrayItem h isSub id (pageKey keyPg parts i)
    if ret = 0 then return ret else subLoop isSub id keyPg parts left (i + 1) ret

def checkSubPageItem (isSub : Bool) (pgcnt : ℤ) (id keyPg : String) (parts : List String) : Method ℤ :=
  subLoop h isSub id keyPg parts pgcnt.toNat 0 (-1)

def readPages : Option (Value Record) → Method Pages
  | none => return ⟨0, 0⟩
  | some (.json (.pages pgs)) => return pgs
  | some _ => throw

def checkAddPagesItem (isAdd : Bool) (id keyPgs keyPg : String) (parts : List String) : Method ℤ := do
  let pgsKey := makeKey keyPgs parts
  let pgsVal ← load pgsKey
  let pgs ← readPages pgsVal
  let ret ← checkAddPageItem h isAdd pgs.pages id keyPg parts
  if isAdd = true ∧ ret ≥ -1 then
    store h pgsKey (.json (.pages ⟨if ret > 0 then ret else pgs.pages, pgs.value + 1⟩))
    return if pgsVal = none then 0 else ret
  else return ret

def checkSubPagesItem (isSub : Bool) (id keyPgs keyPg : String) (parts : List String) : Method ℤ := do
  let pgsKey := makeKey keyPgs parts
  let pgsVal ← load pgsKey
  match pgsVal with
  | none => return -1
  | some (.json (.pages pgs)) =>
    let ret ← checkSubPageItem h isSub pgs.pages id keyPg parts
    if ret = 0 ∧ isSub = true then
      let value := pgs.value - 1
      store h pgsKey (.json (.pages ⟨if value = 0 then pgs.pages - 1 else pgs.pages, value⟩))
      return value
    else return ret
  | some _ => throw

/-! ### Amounts -/

/-- `_addVal`: whether there was nothing before. -/
def addVal (val key : String) : Method Bool := do
  let old ← load key
  match old with
  | none =>
    let sum ← call (int64Add "0" val)
    store h key (.text sum)
    return true
  | some old =>
    let old ← call old.text?
    let sum ← call (int64Add old val)
    store h key (.text sum)
    return false

def subVal (isSub : Bool) (val key : String) : Method ℤ := do
  let old ← load key
  match old with
  | none => return -1
  | some old =>
    let old ← call old.text?
    let rest ← call (int64Sub old val)
    let sign ← call (int64Compare rest "0")
    if sign < 0 then return -1
    else if isSub then
      if rest ≠ "0" then
        store h key (.text rest)
        return 1
      else
        del key
        return 0
    else return 1

def checkAddBalance (dest skuId trnId val : String) : Method Unit := do
  let _ ← addVal h val (makeKey keys.ble [skuId, dest])
  let trnAddRet ← addVal h val (makeKey keys.bletrn [skuId, trnId, dest])
  if trnAddRet then
    let _ ← checkAddPagesItem h true trnId keys.bletrnspgs keys.bletrnspg [skuId, dest]

/-- The allowance of a sender who is not the owner falls by what is taken. -/
def useAllowance (sender source skuId trnId val : String) : Method Unit :=
  if sender = source then pure ()
  else do
    let alwKey := makeKey keys.alw [source, skuId, trnId, sender]
    let alwVal ← checkExist alwKey
    let alwVal ← call alwVal.text?
    let order ← call (int64Compare alwVal val)
    assert (order ≥ 0)
    let alwVal ← call (int64Sub alwVal val)
    store h alwKey (.text alwVal)

/-- A tranche of which nothing is left is taken from the list of the account. -/
def leaveTranche (trnSubRet : ℤ) (skuId trnId source : String) : Method Unit :=
  if trnSubRet = 0 then do
    let _ ← checkSubPagesItem h true trnId keys.bletrnspgs keys.bletrnspg [skuId, source]
    return ()
  else pure ()

/-- The balance of the sku falls with the one of the tranche. -/
def subSku (isSub : Bool) (trnSubRet : ℤ) (skuId trnId source val : String) : Method Unit :=
  if isSub = true then do
    leaveTranche h trnSubRet skuId trnId source
    let _ ← subVal h isSub val (makeKey keys.ble [skuId, source])
    return ()
  else pure ()

/-- `_checkSubBalance`; it returns the tranche. -/
def checkSubBalance (sender source skuId : String) (trnId : Option String) (val : String) (isSub isDftTrn : Bool) :
    Method String := do
  let skuTk ← loadSku skuId
  let trnId ← checkTranche trnId skuTk.defaultTrancheId (some isDftTrn)
  let _ ← checkExist (makeKey keys.trn [trnId])
  useAllowance h sender source skuId trnId val
  let trnSubRet ← subVal h isSub val (makeKey keys.bletrn [skuId, trnId, source])
  assert (trnSubRet ≠ -1)
  subSku h isSub trnSubRet skuId trnId source val
  return trnId

/-! ### Methods of the seller -/

/-- `_setSeller`. -/
def setSellerOf (sender cpyFlNm cpyStNm cpyCat : String) : Method Unit := do
  assert (checkStr cpyFlNm 1 1024)
  assert (checkStr cpyStNm 1 64)
  assert (checkStr cpyCat 1 64)
  store h keys.sel (.json (.seller sender))

def setSeller (cpyFlNm cpyStNm cpyCat : String) : Method Unit := do
  assert ((← checkIsSeller c.txSender) = true)
  setSellerOf h c.txSender cpyFlNm cpyStNm cpyCat

def setDocument (id name url hashType hash : String) : Method Unit := do
  assert (checkStr id 1 32)
  assert (checkStr name 1 1024)
  assert (checkStr url 1 10240)
  assert (checkStr hashType 1 64)
  assert (checkStr hash 1 2048)
  assert ((← checkIsSeller c.txSender) = true)
  assert ((← checkAddPagesItem h true id keys.docspgs keys.docspg []) ≠ -3)
  store h (makeKey keys.doc [id]) (.json .unread)

def createSpu (id name type : String) : Method Unit := do
  assert (checkStr id 1 32)
  assert (checkStr name 1 1024)
  assert (checkStr type 1 64)
  assert ((← checkIsSeller c.txSender) = true)
  checkNotExist (makeKey keys.spu [id])
  store h (makeKey keys.spu [id]) (.json .unread)

def setSpu (spuId name type : String) : Method Unit := do
  assert (checkStr spuId 1 32)
  assert (checkStr name 1 1024)
  assert (checkStr type 1 64)
  let _ ← checkExist (makeKey keys.spu [spuId])
  store h (makeKey keys.spu [spuId]) (.json .unread)

def createTranche (id : String) (des : Option String) : Method Unit := do
  assert (checkStr id 1 32)
  assert (checkStr0 des 64000)
  assert ((← checkIsSeller c.txSender) = true)
  checkNotExist (makeKey keys.trn [id])
  store h (makeKey keys.trn [id]) (.json .unread)

structure Issue where
  skuId : String
  trnId : Option String
  isDftTrn : Option Bool
  spuId : Option String
  name : String
  symbol : String
  faceVal : Option String
  supply : String
  decimals : String
  mainIcn : Option String
  viceIcns : Option (List String)
  labels : Option (List String)
  des : Option String
  repnAddr : Address
  acpId : String
  abs : Option (List String)

def Issue.check (p : Issue) : Bool :=
  checkStr p.skuId 1 32 && checkStr0 p.spuId 32 && checkStr p.name 1 1024 && checkStr p.symbol 1 16 &&
    checkStr0 p.faceVal 32 && checkPositive p.supply && checkInt p.decimals 0 8 && checkStr0 p.mainIcn 10240 &&
    checkArray p.viceIcns 5 1 10240 && checkStr0 p.des 64000 && checkArray p.labels 20 1 1024 &&
    checkAddr h c p.repnAddr && checkArray p.abs 20 1 32 && checkStr p.acpId 1 64

def checkSpu : Option String → Method Unit
  | none => pure ()
  | some spuId => do
    let _ ← checkExist (makeKey keys.spu [spuId])

def addToSpu (skuId : String) : Option String → Method Unit
  | none => pure ()
  | some spuId => do
    let _ ← checkAddPagesItem h true skuId keys.spuskuspgs keys.spuskuspg [spuId]

def issue (p : Issue) : Method Unit := do
  let trnId ← checkTranche p.trnId none none
  assert (p.check h c)
  assert ((← checkIsSeller c.txSender) = true)
  checkNotExist (makeKey keys.sku [p.skuId])
  checkSpu p.spuId
  let _ ← checkExist (makeKey keys.trn [trnId])
  let _ ← checkExist (makeKey keys.acp [p.acpId])
  store h (makeKey keys.sku [p.skuId]) (.json (.sku
    { defaultTrancheId := if p.isDftTrn = some true then some trnId else none
      totalSupply := p.supply, authorizers := [] }))
  store h (makeKey keys.skutrnspy [p.skuId, trnId]) (.text p.supply)
  let _ ← checkAddPagesItem h true trnId keys.skutrnspgs keys.skutrnspg [p.skuId]
  let _ ← checkAddPagesItem h true p.acpId keys.skuacpspgs keys.skuacpspg [p.skuId]
  let _ ← checkAddPagesItem h true p.skuId keys.trnskuspgs keys.trnskuspg [trnId]
  addToSpu h p.skuId p.spuId
  store h (makeKey keys.ble [p.skuId, c.txSender]) (.text p.supply)
  store h (makeKey keys.bletrn [p.skuId, trnId, c.txSender]) (.text p.supply)
  let _ ← checkAddPagesItem h true trnId keys.bletrnspgs keys.bletrnspg [p.skuId, c.txSender]

/-- `setSkusChoice`, with the length of the text of the choice. -/
def setSkusChoice (spuId : String) (choiceLength : ℕ) : Method Unit := do
  assert (checkStr spuId 1 32)
  assert (1 ≤ choiceLength ∧ choiceLength ≤ 1024)
  let _ ← checkExist (makeKey keys.spu [spuId])
  store h (makeKey keys.spu [spuId]) (.json .unread)

structure SetSku where
  skuId : String
  name : Option String
  symbol : Option String
  mainIcn : Option String
  viceIcns : Option (List String)
  labels : Option (List String)
  des : Option String
  repnAddr : Option Address
  abs : Option (List String)

def SetSku.check (p : SetSku) : Bool :=
  checkStr p.skuId 1 32 && checkStr0 p.name 1024 && checkStr0 p.symbol 16 && checkStr0 p.mainIcn 10240 &&
    checkArray p.viceIcns 5 1 10240 && checkStr0 p.des 64000 && checkArray p.labels 20 1 1024 &&
    p.repnAddr.all (checkAddr h c) && checkArray p.abs 20 1 32

/-- `setSku`: none of the fields it sets is read. -/
def setSku (p : SetSku) : Method Unit := do
  assert (p.check h c)
  assert ((← checkIsSeller c.txSender) = true)
  let skuTk ← loadSku p.skuId
  store h (makeKey keys.sku [p.skuId]) (.json (.sku skuTk))

def addAcceptanceToSku (skuId acpId : String) : Method Unit := do
  assert (checkStr skuId 1 32)
  assert (checkStr acpId 1 64)
  assert ((← checkIsSeller c.txSender) = true)
  let _ ← checkExist (makeKey keys.sku [skuId])
  let _ ← checkExist (makeKey keys.acp [acpId])
  let ret ← checkAddPagesItem h true acpId keys.skuacpspgs keys.skuacpspg [skuId]
  assert (ret ≠ -2)
  assert (ret ≠ -3)

def delAcceptanceFromSku (skuId acpId : String) : Method Unit := do
  assert (checkStr skuId 1 32)
  assert (checkStr acpId 1 64)
  assert ((← checkIsSeller c.txSender) = true)
  let _ ← checkExist (makeKey keys.sku [skuId])
  let ret ← checkSubPagesItem h true acpId keys.skuacpspgs keys.skuacpspg [skuId]
  assert (ret ≠ -1)

def additionalIssuance (skuId : String) (trnId : Option String) (supply : String) : Method Unit := do
  assert (checkStr skuId 1 32)
  assert (checkPositive supply)
  assert ((← checkIsSeller c.txSender) = true)
  let skuTk ← loadSku skuId
  let totalSupply ← call (int64Add skuTk.totalSupply supply)
  store h (makeKey keys.sku [skuId]) (.json (.sku { skuTk with totalSupply := totalSupply }))
  let trnId ← checkTranche trnId skuTk.defaultTrancheId (some true)
  let _ ← checkExist (makeKey keys.trn [trnId])
  let _ ← addVal h supply (makeKey keys.skutrnspy [skuId, trnId])
  let _ ← checkAddPagesItem h true trnId keys.skutrnspgs keys.skutrnspg [skuId]
  let _ ← addVal h supply (makeKey keys.ble [skuId, c.txSender])
  let _ ← addVal h supply (makeKey keys.bletrn [skuId, trnId, c.txSender])
  let _ ← checkAddPagesItem h true trnId keys.bletrnspgs keys.bletrnspg [skuId, c.txSender]

def assignToTranche (skuId : String) (toTrnId : Option String) (val : String) : Method Unit := do
  assert (checkStr skuId 1 32)
  assert (checkStr0 toTrnId 32)
  assert (checkPositive val)
  assert ((← checkIsSeller c.txSender) = true)
  let skuTk ← loadSku skuId
  assert (skuTk.defaultTrancheId ≠ none)
  assert (skuTk.defaultTrancheId ≠ toTrnId)
  let _ ← checkExist (makeKey keys.trn toTrnId.toList)
  let _ ← checkSubBalance h c.txSender c.txSender skuId skuTk.defaultTrancheId val true true
  -- An undefined tranche has not been found, so there is one.
  let toTrnId ← call toTrnId
  checkAddBalance h c.txSender skuId toTrnId val

def setAuthorizers (skuId : String) (autrs : List Address) : Method Unit := do
  assert (checkStr skuId 1 32)
  assert (1 ≤ autrs.length ∧ autrs.length ≤ 10)
  assert ((← checkIsSeller c.txSender) = true)
  let skuTk ← loadSku skuId
  assert (autrs.all (checkAddr h c) = true)
  store h (makeKey keys.sku [skuId]) (.json (.sku { skuTk with authorizers := autrs }))

def authorizeSku (skuId : String) (trnId : Option String) : Method Unit := do
  assert (checkStr skuId 1 32)
  assert (checkStr0 trnId 32)
  let skuTk ← loadSku skuId
  assert (c.txSender ∈ skuTk.authorizers)
  let trnId ← checkTranche trnId skuTk.defaultTrancheId (some true)
  let _ ← checkExist (makeKey keys.trn [trnId])
  let trnInSku ← checkAddPagesItem h false trnId keys.skutrnspgs keys.skutrnspg [skuId]
  assert (trnInSku ≠ -1)
  let autrVal ← checkExist (makeKey keys.skutrnspy [skuId, trnId])
  store h (makeKey keys.skuauth [skuId, trnId, c.txSender]) autrVal

/-- `_destroy`. -/
def destroyFrom (a skuId trnId val : String) : Method Unit := do
  let _ ← checkSubBalance h a a skuId (some trnId) val true true
  let skuTk ← loadSku skuId
  let totalSupply ← call (int64Sub skuTk.totalSupply val)
  store h (makeKey keys.sku [skuId]) (.json (.sku { skuTk with totalSupply := totalSupply }))

def destroy (a : Address) (skuId : String) (trnId : Option String) (val : String) : Method Unit := do
  assert (checkAddr h c a)
  assert (checkStr skuId 1 32)
  assert (checkPositive val)
  assert ((← checkIsSeller c.txSender) = true)
  assert (a = c.txSender)
  let _ ← checkExist (makeKey keys.sku [skuId])
  let trnId ← checkTranche trnId none none
  let _ ← checkExist (makeKey keys.trn [trnId])
  destroyFrom h a skuId trnId val

def setAcceptance (id pub flNm stNm : String) (logo : Option String) (cat period : String) : Method Unit := do
  assert (checkStr id 1 32)
  let a ← call (h.toAddress pub)
  assert (checkAddr h c a)
  assert (checkStr flNm 1 1024)
  assert (checkStr stNm 1 64)
  assert (checkStr0 logo 10240)
  assert (checkStr cat 1 64)
  assert (checkPositive period)
  assert ((← checkIsSeller c.txSender) = true)
  store h (makeKey keys.acp [id]) (.json (.acceptance { publicKey := pub, period := period }))

/-- `_approve` and `approve`. -/
def approve (spr : Address) (skuId : String) (trnId : Option String) (val : String) : Method Unit := do
  assert (checkAddr h c spr)
  assert (checkStr skuId 1 32)
  assert (checkPositive val)
  let skuTk ← loadSku skuId
  let trnId ← checkTranche trnId skuTk.defaultTrancheId (some false)
  let _ ← checkExist (makeKey keys.trn [trnId])
  let bleTrnVal ← load (makeKey keys.bletrn [skuId, trnId, c.msgSender])
  let bleTrnVal ← call ((bleTrnVal.getD (.text "0")).text?)
  let order ← call (int64Compare bleTrnVal val)
  assert (order ≥ 0)
  store h (makeKey keys.alw [c.msgSender, skuId, trnId, spr]) (.text val)

/-- `_transfer` with `_transferFrom`. -/
def transferOf (source : Address) (skuId : String) (trnId : Option String) (dest : Address) (val : String) :
    Method Unit := do
  assert (checkAddr h c source)
  assert (checkAddr h c dest)
  assert (checkStr skuId 1 32)
  assert (checkPositive val)
  let trnId ← checkSubBalance h c.msgSender source skuId trnId val true false
  checkAddBalance h dest skuId trnId val

def transferFrom (source : Address) (skuId : String) (trnId : Option String) (dest : Address) (val : String) :
    Method Unit :=
  transferOf h c source skuId trnId dest val

def transfer (skuId : String) (trnId : Option String) (dest : Address) (val : String) : Method Unit :=
  transferOf h c c.msgSender skuId trnId dest val

/-! ### Redemptions -/

def requestRedemption (repnId skuId : String) (trnId : Option String) (val acpId : String) (des : Option String) :
    Method Unit := do
  assert (checkStr repnId 1 32)
  assert (checkStr skuId 1 32)
  assert (checkStr0 trnId 32)
  assert (checkPositive val)
  assert (checkStr acpId 1 32)
  assert (checkStr0 des 64000)
  let repnKey := makeKey keys.repn [repnId, c.msgSender]
  checkNotExist repnKey
  let _ ← checkExist (makeKey keys.acp [acpId])
  let _ ← checkSubBalance h c.msgSender c.msgSender skuId trnId val false false
  store h repnKey (.json (.redemption { acceptanceId := acpId, status := 0, sendTime := none }))

def loadRedemption (key : String) : Method Redemption := do
  let value ← checkExist key
  match value with
  | .json (.redemption repn) => return repn
  | _ => throw

def loadAcceptance (acpId : String) : Method Acceptance := do
  let value ← checkExist (makeKey keys.acp [acpId])
  match value with
  | .json (.acceptance acp) => return acp
  | _ => throw

def redeem (repnId : String) (apt : Address) : Method Unit := do
  assert (checkStr repnId 1 32)
  assert (checkAddr h c apt)
  let repnKey := makeKey keys.repn [repnId, apt]
  let repn ← loadRedemption repnKey
  assert (repn.status = 0)
  let acp ← loadAcceptance repn.acceptanceId
  assert (h.toAddress acp.publicKey = some c.txSender)
  checkNotExist (makeKey keys.dpt [repnId, apt])
  store h repnKey (.json (.redemption { repn with status := 1, sendTime := some c.blockTime }))

def checkExpired (pod : String) (stTm : Option Int64) : Method Bool := do
  let pod ← call (safeStoi64 pod)
  let hours ← call (ScriptUtils.int64Mul pod 24)
  let seconds ← call (ScriptUtils.int64Mul hours 3600)
  let limit ← call (ScriptUtils.int64Mul seconds 1000000)
  let stTm ← call stTm
  let current ← call (ScriptUtils.int64Sub c.blockTime stTm)
  return decide (current > limit)

def confirmRedemption (repnId : String) (apt : Address) : Method Unit := do
  assert (checkStr repnId 1 32)
  assert (checkAddr h c apt)
  let repnKey := makeKey keys.repn [repnId, apt]
  let repn ← loadRedemption repnKey
  assert (repn.status = 1)
  let acp ← loadAcceptance repn.acceptanceId
  let isExpired ← checkExpired c acp.period repn.sendTime
  assert (isExpired = true ∨ c.msgSender = apt)
  checkNotExist (makeKey keys.dpt [repnId, apt])
  store h repnKey (.json (.redemption { repn with status := 2 }))

def applyDispute (repnId : String) (apt : Address) (rsn : String) (ctr : Address) : Method Unit := do
  assert (checkStr repnId 1 32)
  assert (checkAddr h c apt)
  assert (checkStr rsn 1 64000)
  assert (checkAddr h c ctr)
  assert ((← checkIsSeller c.msgSender) = true ∨ c.msgSender = apt)
  let repn ← loadRedemption (makeKey keys.repn [repnId, apt])
  assert (repn.status = 0 ∨ repn.status = 1)
  checkNotExist (makeKey keys.dpt [repnId, apt])
  store h (makeKey keys.dpt [repnId, apt]) (.json (.dispute { controller := ctr, status := 0 }))

def setEvidence (repnId : String) (apt : Address) (des : Option String) : Method Unit := do
  assert (checkStr repnId 1 32)
  assert (checkAddr h c apt)
  assert (checkStr0 des 64000)
  let repn ← loadRedemption (makeKey keys.repn [repnId, apt])
  let acp ← loadAcceptance repn.acceptanceId
  assert (c.msgSender = apt ∨ (← checkIsSeller c.msgSender) = true ∨ h.toAddress acp.publicKey = some c.msgSender)
  let _ ← checkExist (makeKey keys.dpt [repnId, apt])
  store h (makeKey keys.evi [repnId, apt, c.msgSender]) (.json .unread)

def handleDispute (repnId : String) (apt : Address) (sas : ℕ) (des : Option String) : Method Unit := do
  assert (checkStr repnId 1 32)
  assert (checkAddr h c apt)
  assert (sas = 1 ∨ sas = 2)
  assert (checkStr0 des 64000)
  let repn ← loadRedemption (makeKey keys.repn [repnId, apt])
  let value ← checkExist (makeKey keys.dpt [repnId, apt])
  match value with
  | .json (.dispute dpt) =>
    assert (dpt.controller = c.msgSender)
    assert (dpt.status = 0)
    store h (makeKey keys.dpt [repnId, apt]) (.json (.dispute { dpt with status := sas }))
    store h (makeKey keys.repn [repnId, apt]) (.json (.redemption { repn with status := if sas = 1 then 3 else 2 }))
  | _ => throw

/-! ### The contract -/

inductive Input where
  | setSeller (companyFullName companyShortName companyContact : String)
  | setDocument (id name url hashType hash : String)
  | createSpu (id name type : String)
  | setSpu (spuId name type : String)
  | issue (p : Issue)
  | setSkusChoice (spuId : String) (choiceLength : ℕ)
  | setSku (p : SetSku)
  | addAcceptanceToSku (skuId acceptanceId : String)
  | delAcceptanceFromSku (skuId acceptanceId : String)
  | additionalIssuance (skuId : String) (trancheId : Option String) (supply : String)
  | assignToTranche (skuId : String) (toTrancheId : Option String) (value : String)
  | setAuthorizers (skuId : String) (authorizers : List Address)
  | authorizeSku (skuId : String) (trancheId : Option String)
  | createTranche (id : String) (description : Option String)
  | destroy (address : Address) (skuId : String) (trancheId : Option String) (value : String)
  | transferFrom (source : Address) (skuId : String) (trancheId : Option String) (dest : Address) (value : String)
  | transfer (skuId : String) (trancheId : Option String) (dest : Address) (value : String)
  | approve (spender : Address) (skuId : String) (trancheId : Option String) (value : String)
  | setAcceptance (id publicKey fullName shortName : String) (logo : Option String) (contact period : String)
  | requestRedemption (redemptionId skuId : String) (trancheId : Option String) (value acceptanceId : String)
      (description : Option String)
  | redeem (redemptionId : String) (applicant : Address)
  | confirmRedemption (redemptionId : String) (applicant : Address)
  | applyDispute (redemptionId : String) (applicant : Address) (reason : String) (controller : Address)
  | handleDispute (redemptionId : String) (applicant : Address) (status : ℕ) (description : Option String)
  | setEvidence (redemptionId : String) (applicant : Address) (description : Option String)
  /-- `MTD_ERR` -/
  | invalid

def main : Input → Method Unit
  | .setSeller flNm stNm cat => setSeller h c flNm stNm cat
  | .setDocument id name url hashType hash => setDocument h c id name url hashType hash
  | .createSpu id name type => createSpu h c id name type
  | .setSpu spuId name type => setSpu h spuId name type
  | .issue p => issue h c { p with supply := toCString p.supply, decimals := toCString p.decimals }
  | .setSkusChoice spuId choiceLength => setSkusChoice h spuId choiceLength
  | .setSku p => setSku h c p
  | .addAcceptanceToSku skuId acpId => addAcceptanceToSku h c skuId acpId
  | .delAcceptanceFromSku skuId acpId => delAcceptanceFromSku h c skuId acpId
  | .additionalIssuance skuId trnId supply => additionalIssuance h c skuId trnId (toCString supply)
  | .assignToTranche skuId toTrnId val => assignToTranche h c skuId toTrnId (toCString val)
  | .setAuthorizers skuId autrs => setAuthorizers h c skuId autrs
  | .authorizeSku skuId trnId => authorizeSku h c skuId trnId
  | .createTranche id des => createTranche h c id des
  | .destroy a skuId trnId val => destroy h c a skuId trnId (toCString val)
  | .transferFrom source skuId trnId dest val => transferFrom h c source skuId trnId dest (toCString val)
  | .transfer skuId trnId dest val => transfer h c skuId trnId dest (toCString val)
  | .approve spr skuId trnId val => approve h c spr skuId trnId (toCString val)
  | .setAcceptance id pub flNm stNm logo cat period => setAcceptance h c id pub flNm stNm logo cat (toCString period)
  | .requestRedemption repnId skuId trnId val acpId des =>
    requestRedemption h c repnId skuId trnId (toCString val) acpId des
  | .redeem repnId apt => redeem h c repnId apt
  | .confirmRedemption repnId apt => confirmRedemption h c repnId apt
  | .applyDispute repnId apt rsn ctr => applyDispute h c repnId apt rsn ctr
  | .handleDispute repnId apt sas des => handleDispute h c repnId apt sas des
  | .setEvidence repnId apt des => setEvidence h c repnId apt des
  | .invalid => throw

structure Params where
  companyFullName : String
  companyShortName : String
  companyContact : String

/-- `init`, in the transaction that creates the contract. -/
def init (p : Params) : Option (Storage Record) := do
  let (_, s) ← (do
    setSellerOf h c.txSender p.companyFullName p.companyShortName p.companyContact
    store h keys.crt (.json .unread)
    store h (makeKey keys.trn ["0"]) (.json .unread) : Method Unit) ∅
  return s

structure Call where
  context : Context
  input : Input

def step (s : Storage Record) (m : Call) : Option (Storage Record) := (main h m.context m.input s).map Prod.snd

/-- A lookup of the contract that takes the account of the last ledger. -/
def back (last _ : Storage Record) : Storage Record := last

def run : Ledgered (Storage Record) → List (LedgerEvent Call) → Option (Ledgered (Storage Record)) :=
  Ledgered.run back fun _ => step h

end Atp60
end OpenSesame
