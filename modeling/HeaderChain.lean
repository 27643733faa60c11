import HeaderChain.Index.Operation
import HeaderChain.Proofs.AppendedChain
import HeaderChain.Proofs.ArrivalOrder
import HeaderChain.Proofs.ArrivalQueue
import HeaderChain.Proofs.Bookkeeping
import HeaderChain.Proofs.Candidacy
import HeaderChain.Proofs.Catalog
import HeaderChain.Proofs.ChainView
import HeaderChain.Proofs.CleanFailure
import HeaderChain.Proofs.CommonAncestor
import HeaderChain.Proofs.EvictionLoop
import HeaderChain.Proofs.Extension
import HeaderChain.Proofs.Filing
import HeaderChain.Proofs.ForkWalk
import HeaderChain.Proofs.GenesisDistance
import HeaderChain.Proofs.Interleaving
import HeaderChain.Proofs.Line
import HeaderChain.Proofs.LinkCoherence
import HeaderChain.Proofs.PlainWalk
import HeaderChain.Proofs.PoisonedStore
import HeaderChain.Proofs.RowReading
import HeaderChain.Proofs.StoreReads
import HeaderChain.Proofs.StoreUpkeep
import HeaderChain.Proofs.StoredRows
import HeaderChain.Proofs.Substitution
import HeaderChain.Proofs.TipForecast
import HeaderChain.Proofs.Transparency
import HeaderChain.Proofs.WorkGrowth
import HeaderChain.Store.Logged
import HeaderChain.Store.Memory
import HeaderChain.Store.Rows
import HeaderChain.Store.Script
