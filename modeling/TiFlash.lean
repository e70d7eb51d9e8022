import TiFlash.DM.Proofs.DeltaIndexProofs
import TiFlash.DM.Proofs.DeltaSystemProofs
import TiFlash.DM.Proofs.DeltaTreeProofs
import TiFlash.DM.Proofs.FilterParserProofs
import TiFlash.DM.Proofs.MvccFilterProofs
import TiFlash.DM.Proofs.PackFormatProofs
import TiFlash.DM.Proofs.PlaceDeleteProofs
import TiFlash.DM.Proofs.QueryReadProofs
import TiFlash.DM.Proofs.ReorganizeProofs
import TiFlash.DM.Proofs.RoughSetProofs
import TiFlash.DM.Proofs.StringMinMaxProofs
import TiFlash.DM.Proofs.WriteRoutingProofs
import TiFlash.Flash.Proofs.ExchangeRunProofs
import TiFlash.Flash.Proofs.MPPTaskProofs
import TiFlash.Flash.Proofs.StreamingWriterProofs
import TiFlash.Functions.Proofs.AddSecondsProofs
import TiFlash.Functions.Proofs.DateTimeNumberProofs
import TiFlash.Functions.Proofs.DecimalArithmeticProofs
import TiFlash.Functions.Proofs.DecimalRoundingProofs
import TiFlash.Functions.Proofs.StringToIntegerProofs
import TiFlash.Interpreters.Proofs.JoinSqlProofs
import TiFlash.Page.Proofs.SnapshotWriteProofs
import TiFlash.Transaction.Proofs.SplitMergeProofs
import TiFlash.Transaction.Proofs.CyclicRenameProofs
import TiFlash.Transaction.Proofs.FlushSystemProofs
import TiFlash.Transaction.Proofs.RegionBlockReaderProofs
import TiFlash.Transaction.Proofs.TiKVRangeProofs
