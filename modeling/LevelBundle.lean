import LevelBundle.Main
import LevelBundle.Proofs.Lifecycle
import LevelBundle.Proofs.Reporting
import LevelBundle.Proofs.Refusals
import LevelBundle.Proofs.Alignments
import LevelBundle.Proofs.Deduplication
import LevelBundle.Proofs.WellFormed
import LevelBundle.Proofs.Leftovers
import LevelBundle.Proofs.StoreContents
import LevelBundle.Proofs.RefusedCalls
import LevelBundle.Proofs.Passes
import LevelBundle.Proofs.Idempotence
import LevelBundle.Proofs.Confinement
import LevelBundle.Proofs.Agreement
import LevelBundle.Proofs.Overflow
import LevelBundle.Proofs.ByteOrders
import LevelBundle.Proofs.FirstFit
import LevelBundle.Proofs.Citations
import LevelBundle.Proofs.WrittenScripts
import LevelBundle.Proofs.RequestOrder
import LevelBundle.Proofs.Positions
import LevelBundle.Proofs.Paths
import LevelBundle.Proofs.Templates
import LevelBundle.Proofs.DefinedNames
import LevelBundle.Proofs.TokenSpans
import LevelBundle.Proofs.RuntimeAddresses
