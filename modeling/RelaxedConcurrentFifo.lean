import RelaxedConcurrentFifo.AtomicBitset.ClaimBit
import RelaxedConcurrentFifo.BlockBasedQueue.Nullopt
import RelaxedConcurrentFifo.BlockBasedQueue.Ownership
import RelaxedConcurrentFifo.BlockBasedQueue.Relaxation
import RelaxedConcurrentFifo.BlockBasedQueue.MinSize
import RelaxedConcurrentFifo.TerminationDetection
import RelaxedConcurrentFifo.Bfs.Multistart
import RelaxedConcurrentFifo.Bfs.Report
import RelaxedConcurrentFifo.LockFifo
import RelaxedConcurrentFifo.KFifo.Sequential
import RelaxedConcurrentFifo.MultiFifo.Conservation
import RelaxedConcurrentFifo.MultiFifo.Permutation
import RelaxedConcurrentFifo.MultiFifo.Quality
import RelaxedConcurrentFifo.MultiFifo.Symmetric
import RelaxedConcurrentFifo.GraphFile.Agreement
import RelaxedConcurrentFifo.ReplayTree.Invariant
import RelaxedConcurrentFifo.BenchmarkQuality
import RelaxedConcurrentFifo.FAAArrayQueue
import RelaxedConcurrentFifo.LCRQueue.Linearizable
import RelaxedConcurrentFifo.MichaelScottQueue.Linearizable
import RelaxedConcurrentFifo.TwoDdQueue.Sequential
