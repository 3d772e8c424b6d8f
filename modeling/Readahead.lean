import Readahead.Session
import Readahead.Proofs.Records
import Readahead.Proofs.LookForecast
import Readahead.Proofs.BytesSupplied
import Readahead.Proofs.TakeTranscript
import Readahead.Proofs.PrefixTests
import Readahead.Proofs.LookThenSkip
import Readahead.Proofs.CapacityPromise
import Readahead.Proofs.ByteConservation
import Readahead.Proofs.NothingLost
import Readahead.Proofs.RawReads
import Readahead.Proofs.DrainOrRetire
import Readahead.Proofs.LineHistory
import Readahead.Proofs.GrainAgreement
import Readahead.Proofs.StreamUnseen
import Readahead.Proofs.StockUnseen
import Readahead.Proofs.EndHeardOnce
import Readahead.Proofs.FailureRecurs
import Readahead.Proofs.DoneForGood
import Readahead.Proofs.ReadsNeeded
import Readahead.Proofs.ReadBudget
import Readahead.Proofs.DecodePieces
import Readahead.Proofs.StockCoverage
import Readahead.Proofs.StorageBounds
import Readahead.Proofs.NoteSums
