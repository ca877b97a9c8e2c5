import DifficultyRules.Check
import DifficultyRules.MemoryChain.Growth
import DifficultyRules.ProofOfWork
import DifficultyRules.Store.Table
import DifficultyRules.Proofs.Walk
import DifficultyRules.Proofs.PartialStore
import DifficultyRules.Proofs.Acceptance
import DifficultyRules.Proofs.StoredDifficulty
import DifficultyRules.Proofs.Rounding
import DifficultyRules.Proofs.WindowTarget
import DifficultyRules.Proofs.LinkedChain
import DifficultyRules.Proofs.WithinLimit
import DifficultyRules.Proofs.MainnetRun
import DifficultyRules.Proofs.Path
import DifficultyRules.Proofs.RetargetBand
import DifficultyRules.Proofs.WindowEnds
import DifficultyRules.Proofs.Hindrance
import DifficultyRules.Proofs.CompleteHistory
import DifficultyRules.Proofs.WindowWork
import DifficultyRules.Proofs.HealthyStore
import DifficultyRules.Proofs.SteadyChain
import DifficultyRules.Proofs.Variation
import DifficultyRules.Proofs.Invariance
import DifficultyRules.Proofs.Lookback
import DifficultyRules.Proofs.Operations
import DifficultyRules.Proofs.Median
import DifficultyRules.Proofs.WalkVerdict
import DifficultyRules.Proofs.EasedTarget
import DifficultyRules.Proofs.EncodingOrder
import DifficultyRules.Proofs.MinimalRun
import DifficultyRules.Proofs.Monotonicity
import DifficultyRules.Proofs.RetargetWindow
import DifficultyRules.Proofs.Decoding
import DifficultyRules.Proofs.HashCount
import DifficultyRules.Proofs.HistoryItems
import DifficultyRules.Proofs.MedianTimePast
import DifficultyRules.Proofs.MiddleBlock
import DifficultyRules.Proofs.HistoryWalk
import DifficultyRules.Proofs.RuleList
import DifficultyRules.Proofs.Warnings
import DifficultyRules.Proofs.Ancestors
import DifficultyRules.Proofs.MarkedChain
import DifficultyRules.Proofs.SpacedGrowth
import DifficultyRules.Proofs.SteadyTable
