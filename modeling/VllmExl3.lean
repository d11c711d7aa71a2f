import VllmExl3.ExpertCache.StreamSafety
import VllmExl3.ExpertCache.RingFreshness
import VllmExl3.ExpertCache.Sizing
import VllmExl3.ExpertCache.Promotion
import VllmExl3.TensorParallel.Experts
import VllmExl3.TensorParallel.Fused
import VllmExl3.Ops.Embed
import VllmExl3.Ops.Tiles
import VllmExl3.FusedMoe.Divisor
import VllmExl3.Embedding.ErrorBound
import VllmExl3.Embedding.VocabParallel
import VllmExl3.LMHead.VocabParallel
import VllmExl3.Bench.Gate
import VllmExl3.Quant.Lanes
import VllmExl3.Measure.Blend
import VllmExl3.Yaqa.FixedPoint
import VllmExl3.Yaqa.CollectHout
import VllmExl3.BlockqCache.WholeEntries
import VllmExl3.BlockqCache.Eviction
import VllmExl3.BlockqCache.Keys
import VllmExl3.CpuOffload.Staging
import VllmExl3.CpuOffload.Loading
import VllmExl3.CpuOffload.HostQuota
import VllmExl3.Config.Sidecar
import VllmExl3.Config.Modules
import VllmExl3.Compose.LaterWins
import VllmExl3.Compose.MovesWhole
import VllmExl3.Compose.ShardRoundTrip
import VllmExl3.Compose.QuantizationConfig
import VllmExl3.Config.Routing
import VllmExl3.Tools.Preflight
import VllmExl3.Tools.LeavesCheckpoint
import VllmExl3.Embedding.Hadamard
import VllmExl3.Yaqa.BlendHout
import VllmExl3.Bench.FreezeTune
import VllmExl3.Tools.BlocktableEvict
import VllmExl3.Format.IntermDivisor
import VllmExl3.LinearMethod.RowParallel
import VllmExl3.Compose.KeepsModel
import VllmExl3.Uncalibrated.Provenance
import VllmExl3.Qbench.Parallel
import VllmExl3.Qbench.Series
import VllmExl3.SyncOutputs.RoundTrip
