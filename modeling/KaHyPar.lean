import KaHyPar.Hypergraph
import KaHyPar.TwoWayFM.Refiner
import KaHyPar.TwoWayFM.Gain
import KaHyPar.TwoWayFM.GainUpdate
import KaHyPar.TwoWayFM.QueueInvariant
import KaHyPar.TwoWayFM.Step
import KaHyPar.TwoWayFM.Pass
import KaHyPar.TwoWayFM.CutInvariant
import KaHyPar.TwoWayFM.Rollback
import KaHyPar.TwoWayFM.Checkpoint
import KaHyPar.TwoWayFM.Termination
import KaHyPar.TwoWayFM.Balance
import KaHyPar.TwoWayFM.Outcome
import KaHyPar.InitialPartitioning.GreedyGrowing
import KaHyPar.InitialPartitioning.Termination
import KaHyPar.InitialPartitioning.Frontier
import KaHyPar.InitialPartitioning.Queues
import KaHyPar.InitialPartitioning.Completion
