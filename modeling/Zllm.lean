import Zllm.Gpu.BlockConservation
import Zllm.Gpu.RequestProtocol
import Zllm.Gpu.Transparency
import Zllm.Gpu.Reproducibility
import Zllm.Gpu.ContextBound
import Zllm.Gpu.KvContent
import Zllm.Gpu.FullPool
import Zllm.Gpu.NucleusDraw
import Zllm.Gpu.SpeculativeRows
import Zllm.Gpu.Overcommit
import Zllm.Gpu.Progress
import Zllm.Engine.LiveMemo
import Zllm.Engine.MaskLeaves
import Zllm.Gpu.PrefixReach
import Zllm.Vulkan.PromptCache
import Zllm.Vulkan.PrefillPlan
import Zllm.Loader.LoadersAgree
import Zllm.Gpu.PrefillAgrees
import Zllm.Vulkan.TokenPass
import Zllm.Engine.StoreRejected
import Zllm.Engine.StoreRoom
import Zllm.Engine.PinnedSurvive
import Zllm.Engine.MemoryInject
import Zllm.ControlPlane.GoalEntries
import Zllm.ControlPlane.GoalEffects
import Zllm.ControlPlane.GoalInterleaving
import Zllm.Vulkan.VerifyAgrees
import Zllm.Engine.SchemaHonoured
import Zllm.Engine.SamplerFilters
import Zllm.Engine.SpecDecode
import Zllm.Engine.StopStrings
import Zllm.Engine.Logprobs
import Zllm.Engine.Uncertainty
import Zllm.Engine.BudgetKept
import Zllm.Engine.TreeGrowth
import Zllm.Vulkan.GeneratePld
import Zllm.Rest.InFlight
import Zllm.Rest.SwapInterleaving
import Zllm.Rest.MaskKept
import Zllm.Rest.FinishReason
import Zllm.Rest.SlotRuns
import Zllm.Rest.SlotSpeculation
import Zllm.Rest.StreamText
import Zllm.ControlPlane.GoalFile
import Zllm.ControlPlane.GoalReencode
import Zllm.ControlPlane.GoalPersistence
import Zllm.Gpu.AnsweredOnce
import Zllm.Gpu.AdmissionGate
import Zllm.Vulkan.FlashAgrees
import Zllm.Gpu.PagedAttention
import Zllm.Gpu.ServedStream
import Zllm.Candle.Q4KRepack
import Zllm.Candle.Avx2Agrees
import Zllm.Gpu.TopkRounds
import Zllm.Vulkan.DescriptorPools
import Zllm.Vulkan.WeightRepack
import Zllm.Vulkan.HeadMajorRuns
import Zllm.Vulkan.PrefillPass
import Zllm.Candle.EarlyExit
import Zllm.Candle.RunnerAgrees
