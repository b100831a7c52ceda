import OpenSesame.Theorems.Address
import OpenSesame.Theorems.Aes
import OpenSesame.Theorems.Broadcast
import OpenSesame.Theorems.Consensus.Arrival
import OpenSesame.Theorems.Consensus.Pending
import OpenSesame.Theorems.Consensus.SelfProof
import OpenSesame.Theorems.Consensus.ViewChange
import OpenSesame.Theorems.Consensus.Votes
import OpenSesame.Theorems.Contract.Amounts
import OpenSesame.Theorems.Contract.Atp60Balances
import OpenSesame.Theorems.Contract.CobuildPoll
import OpenSesame.Theorems.Contract.CobuildRewards
import OpenSesame.Theorems.Contract.Host
import OpenSesame.Theorems.Contract.TokenConservation
import OpenSesame.Theorems.Contract.VoteRanking
import OpenSesame.Theorems.Environment
import OpenSesame.Theorems.Glue.QueueTop
import OpenSesame.Theorems.Glue.Retry
import OpenSesame.Theorems.Glue.SequenceBinding
import OpenSesame.Theorems.Glue.UpgradeQuorum
import OpenSesame.Theorems.Ledger.Authority
import OpenSesame.Theorems.Ledger.Failure
import OpenSesame.Theorems.Ledger.PreProcess
import OpenSesame.Theorems.Ledger.Propose
import OpenSesame.Theorems.Ledger.SignerUpdates
import OpenSesame.Theorems.Trie.Enumerate
import OpenSesame.Theorems.Trie.Lookup
import OpenSesame.Theorems.Trie.Returns
