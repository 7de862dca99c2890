import VelkarMiner.Argon2
import VelkarMiner.Loops
import VelkarMiner.Extranonce
import VelkarMiner.StratumHistory
import VelkarMiner.SoloMiner
import VelkarMiner.Staleness
import VelkarMiner.SoloBlocks
import VelkarMiner.ShareLimiter
import VelkarMiner.SwapWakeups
import VelkarMiner.SwapViews
import VelkarMiner.StratumDifficulty
import VelkarMiner.NonceSpace
import VelkarMiner.HeaderCode
import VelkarMiner.MatrixDraws
import VelkarMiner.ShareSpacing
import VelkarMiner.DevfundSchedule
import VelkarMiner.SoloBatches
import VelkarMiner.Client
import VelkarMiner.ExtranonceRange
import VelkarMiner.TemplateSlot
import VelkarMiner.Cshake
import VelkarMiner.SpongeStates
import VelkarMiner.TemplateErrors
import VelkarMiner.Searchers
import VelkarMiner.FirstBlocks
import VelkarMiner.KernelKeccak
import VelkarMiner.PrepareJobs
import VelkarMiner.ReferencePositions
import VelkarMiner.ReferenceTable
import VelkarMiner.TargetText
import VelkarMiner.CompactTargets
import VelkarMiner.TargetOrder
import VelkarMiner.LaunchGeometry
import VelkarMiner.WarpMemory
import VelkarMiner.KernelBlake2bStreams
import VelkarMiner.FillSteps
import VelkarMiner.MemoryFill
import VelkarMiner.LongDigest
import VelkarMiner.X86
import VelkarMiner.KeccakAssembly
import VelkarMiner.KeccakCall
import VelkarMiner.DeviceRuns
import VelkarMiner.FinalizeCandidates
import VelkarMiner.Framing
import VelkarMiner.Connection
import VelkarMiner.ConnectionProgress
import VelkarMiner.Barriers
import VelkarMiner.WorkItems
import VelkarMiner.WorkItemFill
import VelkarMiner.Coupled
import VelkarMiner.PoolSession
import VelkarMiner.PoolShares
