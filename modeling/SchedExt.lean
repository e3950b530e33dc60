import SchedExt.Agents.Conversation
import SchedExt.Agents.Dependencies
import SchedExt.Agents.DiagnosticLines
import SchedExt.Agents.FileBlocksRoundTrip
import SchedExt.Agents.FixVerification
import SchedExt.Agents.KindQueries
import SchedExt.Agents.SelfVerification
import SchedExt.Agents.SemanticReview
import SchedExt.Agents.StoredText
import SchedExt.Agents.TestAgent
import SchedExt.Bpf.FairAccounting
import SchedExt.Bpf.FairDispatch
import SchedExt.Bpf.FairIncrement
import SchedExt.Bpf.FairRefinement
import SchedExt.Bpf.RoundRobinHandover
import SchedExt.Bpf.RoundRobinQuantum
import SchedExt.Bpf.RoundRobinRefinement
import SchedExt.Certificate.Assumptions
import SchedExt.Fair.Charging
import SchedExt.Fair.Contracts
import SchedExt.Fair.LongestWait
import SchedExt.Fair.MinVruntime
import SchedExt.Fair.Refinement
import SchedExt.Fair.Rounds
import SchedExt.Fair.Safety
import SchedExt.Fair.ScaledFairness
import SchedExt.Fair.SortedInsertion
import SchedExt.Foundations.FifoLog
import SchedExt.Foundations.Noninterference
import SchedExt.Foundations.TiedService
import SchedExt.Fuzz.Session
import SchedExt.Lsp.Readings
import SchedExt.Orchestrator.Consistency
import SchedExt.Orchestrator.Escalation
import SchedExt.Orchestrator.Prerequisites
import SchedExt.Orchestrator.Resume
import SchedExt.RoundRobin.Implementation
import SchedExt.RoundRobin.QueuePosition
import SchedExt.RoundRobin.Starvation
import SchedExt.Schedulers.Affinity
import SchedExt.Schedulers.CurrentRecords
import SchedExt.Schedulers.Isolation
