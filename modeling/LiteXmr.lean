import LiteXmr.Miner.DatasetBuildTheorems
import LiteXmr.Miner.ReservedBytesTheorems
import LiteXmr.Miner.DuplicateSharesTheorems
import LiteXmr.Stratum.SubmitLineTheorems
import LiteXmr.Stratum.TransportTheorems
import LiteXmr.Controller.PoolSharesTheorems
import LiteXmr.Controller.PoolReportTheorems
import LiteXmr.Controller.PoolJobsTheorems
import LiteXmr.Controller.PoolPipelineTheorems
import LiteXmr.Controller.DaemonModeTheorems
import LiteXmr.Controller.BlockTemplateTheorems
import LiteXmr.Stratum.LineTheorems
import LiteXmr.Stratum.ReplyErrorTheorems
import LiteXmr.Miner.DifficultyTheorems
import LiteXmr.Pool.AddressTheorems
import LiteXmr.Doh.MessageTheorems
import LiteXmr.Miner.IterationTheorems
import LiteXmr.Stratum.SocksTheorems
import LiteXmr.Config.PrecedenceTheorems
import LiteXmr.Config.AlgoPerfTheorems
import LiteXmr.Pool.ResolveTheorems
import LiteXmr.Daemon.RpcUrlTheorems
import LiteXmr.Base64Theorems
import LiteXmr.Randomx.DatasetInitTheorems
import LiteXmr.Cpu.ThreadPlanTheorems
import LiteXmr.Stratum.LoginLineTheorems
import LiteXmr.Controller.DaemonReportTheorems
import LiteXmr.Miner.ProgressTheorems
import LiteXmr.Stratum.AttemptTheorems
import LiteXmr.Controller.KeepaliveTheorems
import LiteXmr.Stratum.ConnectTheorems
import LiteXmr.Doh.ResolveTheorems
import LiteXmr.Miner.BenchmarkTheorems
import LiteXmr.Randomx.Objects
import LiteXmr.Lib.Counted
import LiteXmr.Randomx.ObjectsTheorems
import LiteXmr.Miner.NativeMiner
import LiteXmr.Miner.NativeMinerTheorems
import LiteXmr.Stats
import LiteXmr.StatsTheorems
import LiteXmr.Miner.Counting
import LiteXmr.Miner.CountingTheorems
import LiteXmr.Json.Struct
import LiteXmr.Daemon.RpcReply
import LiteXmr.Controller.SoloMining
import LiteXmr.Controller.SoloMiningTheorems
import LiteXmr.Controller.PoolMining
import LiteXmr.Controller.PoolAccountsTheorems
