import Kardamom.Sealer.ExactlyOnce
import Kardamom.Sealer.NonceOrder
import Kardamom.Sealer.RemoteLane
import Kardamom.Sealer.Reoffer
import Kardamom.Sealer.SnapshotBisim
import Kardamom.Wire.Deadline
import Kardamom.Sequencer.Conservation
import Kardamom.Sequencer.SpendingBound
import Kardamom.Sequencer.EpochOnce
import Kardamom.Sequencer.LoopFloors
import Kardamom.Sequencer.FlushFloors
import Kardamom.Cluster.FeedRuns
import Kardamom.Cluster.SessionBacklogs
import Kardamom.L1.LockboxPayments
import Kardamom.L1.OutputOrder
import Kardamom.L1.ProofOracleRuns
import Kardamom.Reader.AlignmentRuns
import Kardamom.Archive.Join
import Kardamom.Guest.PublicValues
import Kardamom.Validator.Epochs
import Kardamom.Mirror.Projection
import Kardamom.Sealer.ImageTable
import Kardamom.State.TrieBootstrap
