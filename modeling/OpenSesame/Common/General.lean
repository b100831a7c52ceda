import OpenSesame.Utils.SafeInt
import OpenSesame.Ledger.Protocol

/-! # `common/general.cpp`: limits, reserved addresses, the block reward -/

namespace OpenSesame
open Protocol
namespace General

def metadataKeyMaxSize : ℕ := 1024

def metadataMaxValueSize : ℕ := 256 * 1024

def assetCodeMaxSize : ℕ := 64

def contractCodeLimit : ℕ := 256 * 1024

def contractMaxRecursiveDepth : ℕ := 4

def contractStepLimit : Int32 := 10 * 1024

def contractMemoryLimit : Int64 := 30 * 1024 * 1024

def contractStackLimit : Int64 := 256 * 1024

def transactionLimitSize : ℕ := 1024 * 1024

def transactionLogTopicMaxSize : ℕ := 128

def transactionLogDataMaxSize : ℕ := 1024

def maxOperationsNumPerTransaction : ℕ := 100

def uint32Max : Int64 := 4294967295

def ledgerVersionHistory1000 : Int64 := 1000

def ledgerVersionHistory1001 : Int64 := 1001

def ledgerVersionHistory1002 : Int64 := 1002

def contractValidatorAddress : Address := "buQtxgoaDrVJGtoPT66YnA2S84yE8FbBqQDJ"

def contractFeeAddress : Address := "buQiQgRerQM1fUM3GkqUftpNxGzNg2AdJBpe"

def reservedCreatorAddress : Address := "buQgCBN4MSZMWRfJbksh9PWpKqgY3tSEMM4d"

def contractDposAddress : Address := "buQqzdS9YSnokDjvzg4YaNatcFQfkgXqk6ss"

def reservedAddress4 : Address := "buQcHGxxpPDBcPKys8cD5NY1CAiyAfFBjgtg"

def reservedAddress5 : Address := "buQraU2Y5niuYyDdS7FNfJYRrGe8q21RmWc3"

def reservedAddress6 : Address := "buQXoma4baahLbAcnZdC7hFqCHoAxbnytYxd"

def reservedAddress7 : Address := "buQVpA6eKpuDcNfubXsgG9ihN32psE1jyygm"

def reservedAddress8 : Address := "buQa9pRC8B38zd8Z47q97D4X5WwqhMry3VEm"

def rewardPeriod : Int64 := 15768000

def rewardInitValue : Int64 := 800000000

/-- The loop of `GetBlockReward`, with the periods that are left. -/
def decrease : ℕ → Int64 → Int64
  | 0, result => result
  | n + 1, result =>
    if result ≤ 0 then 0
    else if result < 4 then decrease n (result * 3 / 4)
    else decrease n (result - result >>> 2)

def getBlockReward (curBlockHeight : Int64) : Int64 :=
  decrease (curBlockHeight / rewardPeriod).toInt.toNat rewardInitValue

end General
end OpenSesame
