import Bamboo.Library.Quorums
import Bamboo.Library.Stepwise
import Bamboo.Types
import Bamboo.Crypto
import Bamboo.Election
import Bamboo.Forest
import Bamboo.BlockChain
import Bamboo.Pacemaker
import Bamboo.Replica
import Bamboo.HotStuff
import Bamboo.TwoChain
import Bamboo.Safety
import Bamboo.Network
import Bamboo.Reasons
import Bamboo.Transition
import Bamboo.Steady
import Bamboo.Handlers
import Bamboo.Protocols
import Bamboo.Voting
import Bamboo.Certificates
import Bamboo.Intersection
import Bamboo.History
import Bamboo.Lock
import Bamboo.Ledger
import Bamboo.Library.Chains
import Bamboo.Ancestry
import Bamboo.Honest
import Bamboo.TwoChainAgreement
import Bamboo.Byzantine
import Bamboo.HotStuffAgreement
import Bamboo.ForestRuns
import Bamboo.Library.Folds
import Bamboo.ForestOrder
import Bamboo.CommitRuns
import Bamboo.ForkReports
import Bamboo.Library.Threshold
import Bamboo.QuorumRuns
import Bamboo.PacemakerRuns
import Bamboo.HighQC
import Bamboo.ViewBounds
import Bamboo.Admission
import Bamboo.CommitReturns
import Bamboo.VerifiedForest
import Bamboo.CommitForks
import Bamboo.Streamlet
import Bamboo.Notarized
import Bamboo.Outcomes
import Bamboo.BufferPaths
import Bamboo.FhsLock
import Bamboo.Buffers
import Bamboo.EarlyBlocks
import Bamboo.Authenticity
import Bamboo.Announcements
import Bamboo.Library.Settles
import Bamboo.NoCrash
import Bamboo.Backlog
import Bamboo.Mempool
import Bamboo.MempoolRuns
import Bamboo.VoteRuns
import Bamboo.CommitCounters
import Bamboo.TimeoutQuorums
import Bamboo.NotarizedBounds
import Bamboo.Rejections
import Bamboo.VertexIterator
import Bamboo.Database
import Bamboo.ForestChildren
import Bamboo.Client
import Bamboo.Echo
import Bamboo.Statistics
import Bamboo.Calm
import Bamboo.GoodBlocks
import Bamboo.GoodRuns
import Bamboo.TimeoutRound
import Bamboo.Library.Yields
import Bamboo.MoreFuel
import Bamboo.Node
import Bamboo.NodeRuns
import Bamboo.Reports
import Bamboo.Deployment
