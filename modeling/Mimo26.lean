import Mimo26.Api.Coerce
import Mimo26.Api.Lossless
import Mimo26.Api.RoundTrip
import Mimo26.Api.StreamSplit
import Mimo26.Attn.Decompose
import Mimo26.Attn.PagedExact
import Mimo26.Attn.RingRuns
import Mimo26.Coordinator.Budget
import Mimo26.Coordinator.ChunkSpans
import Mimo26.Coordinator.Cluster
import Mimo26.Coordinator.CopyTable
import Mimo26.Coordinator.CopyVocab
import Mimo26.Coordinator.DeviceHit
import Mimo26.Coordinator.Fp8Kv
import Mimo26.Coordinator.Holdback
import Mimo26.Coordinator.HostExact
import Mimo26.Coordinator.HostLookup
import Mimo26.Coordinator.ImageSpans
import Mimo26.Coordinator.KvBuffers
import Mimo26.Coordinator.LaneSteps
import Mimo26.Coordinator.Lanes
import Mimo26.Coordinator.MarkerIntegrity
import Mimo26.Coordinator.PhaseCache
import Mimo26.Coordinator.RecvRing
import Mimo26.Coordinator.Sampling
import Mimo26.Coordinator.TokenizerRoundTrip
import Mimo26.Coordinator.VisionOrder
import Mimo26.Coordinator.WindowCoverage
import Mimo26.Image.Base64
import Mimo26.Image.Idct
import Mimo26.Image.InflateExact
import Mimo26.Image.ResizeExact
import Mimo26.Image.SmartResize
import Mimo26.Lanesim.TicketSums
import Mimo26.Load.E4m3
import Mimo26.Load.Fused
import Mimo26.Repack.JsonExact
import Mimo26.Repack.ManifestStrict
import Mimo26.Repack.Sha256Exact
import Mimo26.Repack.TensorRanges
import Mimo26.Spark.Launches
import Mimo26.Spark.RdmaBuffers
import Mimo26.Wire.Atomic
import Mimo26.Wire.Canonical
import Mimo26.Wire.CrcPaths
import Mimo26.Wire.ExpertClient
import Mimo26.Wire.Sequence
