import SkipAhead.Ascending
import SkipAhead.ByteSet.Basic
import SkipAhead.ByteSet.Runs
import SkipAhead.ByteSet.Text
import SkipAhead.StateId
import SkipAhead.Automaton.Kind
import SkipAhead.Automaton.Basic
import SkipAhead.Automaton.Build
import SkipAhead.Automaton.Proxy
import SkipAhead.Escape.Info
import SkipAhead.Offset.Path
import SkipAhead.Offset.Search
import SkipAhead.Offset.Scorer
import SkipAhead.Escape.OfState
import SkipAhead.Accel.Settings
import SkipAhead.Accel.Region
import SkipAhead.Accel.Table
import SkipAhead.Proofs.ByteSet.Count
import SkipAhead.Proofs.ByteSet.Members
import SkipAhead.Proofs.ByteSet.Denotation
import SkipAhead.Proofs.ByteSet.RunDecomposition
import SkipAhead.Proofs.Offset.Round
import SkipAhead.Proofs.Offset.Walks
import SkipAhead.Proofs.Offset.Complete
import SkipAhead.Proofs.Offset.Irredundant
import SkipAhead.Proofs.Offset.UsefulChecks
import SkipAhead.Proofs.Accel.RegionClosure
import SkipAhead.Proofs.Escape.LocalScan
import SkipAhead.Proofs.Automaton.Symbols
import SkipAhead.Proofs.Automaton.ProxyWalk
import SkipAhead.Proofs.Accel.Reach
import SkipAhead.Proofs.Scorer.LeastCover
import SkipAhead.Proofs.Accel.TwoPhase
import SkipAhead.Proofs.Accel.OffsetLimit
import SkipAhead.Proofs.Automaton.ByteForm
import SkipAhead.Proofs.Accel.Propagation
import SkipAhead.Proofs.Automaton.Checks
import SkipAhead.Proofs.Automaton.Total
