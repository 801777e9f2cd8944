import CereDB.Fts.Search
import CereDB.Proofs.BatchVisibility
import CereDB.Proofs.CompactionOutputs
import CereDB.Proofs.ConcurrentScan
import CereDB.Proofs.ManifestReplay
import CereDB.Proofs.RaftApply
import CereDB.Proofs.RaftDurable
import CereDB.Proofs.ReadAgreement
import CereDB.Proofs.WalCrash
import CereDB.Proofs.TableRoundTrip
import CereDB.Proofs.Preflight
import CereDB.Proofs.Checksum
import CereDB.Proofs.TableValidation
import CereDB.Proofs.WrittenTables
import CereDB.Proofs.CorruptTables
import CereDB.Proofs.AdmissionBounds
import CereDB.Proofs.MemtableSize
import CereDB.Proofs.WalAnalysis
import CereDB.Proofs.WalReadValue
import CereDB.Proofs.WalRescan
import CereDB.Proofs.WalRepair
import CereDB.Proofs.BatchEncoding
import CereDB.Proofs.WalContained
import CereDB.Lib.Recency
import CereDB.Proofs.FileCache
import CereDB.Proofs.FtsIndex
import CereDB.Proofs.FtsCodec
import CereDB.Proofs.WalCanonical
import CereDB.Proofs.EngineRuns
import CereDB.Proofs.FtsSearch
