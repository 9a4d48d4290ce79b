import ChainSync.FileSystem.Tree
import ChainSync.Main
import ChainSync.Rehearsal
import ChainSync.Proofs.Addressing
import ChainSync.Proofs.Chain.Descent
import ChainSync.Proofs.Chain.Interruption
import ChainSync.Proofs.Chain.Replacement
import ChainSync.Proofs.Hash.Text
import ChainSync.Proofs.Http.Agreement
import ChainSync.Proofs.Merkle
import ChainSync.Proofs.Store.Table
import ChainSync.Proofs.Sync.Attempts
import ChainSync.Proofs.Sync.Bodies
import ChainSync.Proofs.Sync.Circling
import ChainSync.Proofs.Sync.Lockstep
import ChainSync.Proofs.Sync.Requests
