import AdapterWs.Crdt.Channel
import AdapterWs.Crdt.StoreOrder
import AdapterWs.Crdt.FlushReport
import AdapterWs.Crdt.ShutdownAnswer
import AdapterWs.Crdt.References
import AdapterWs.Cluster.RelayAttach
import AdapterWs.UpgradeGate.PermitInvariant
import AdapterWs.UpgradeGate.Pacing
import AdapterWs.Webhooks.TokenBuckets
import AdapterWs.Webhooks.Breaker
import AdapterWs.Webhooks.Signature
import AdapterWs.Cohort.Partition
import AdapterWs.Subscribe.Revocation
import AdapterWs.Subscribe.Caps
import AdapterWs.Subscribe.Recovery
import AdapterWs.Subscribe.ObserverRevocation
import AdapterWs.RelayRing.WakeUp
import AdapterWs.RelayRing.StallBlame
import AdapterWs.RelayRing.FrameDecode
import AdapterWs.Relay.AttachSound
import AdapterWs.SafeUrl.Embedding
import AdapterWs.Lock.WaiterBound
import AdapterWs.SeqBound.ObservedMaximum
import AdapterWs.Queue.Fairness
import AdapterWs.Metrics.Monotone
import AdapterWs.Smooth.Resync
import AdapterWs.Cursor.Delivery
import AdapterWs.Replay.Coverage
import AdapterWs.MessageAdmission.Rates
import AdapterWs.Presence.Roster
import AdapterWs.Cursor.Rest
import AdapterWs.Presence.Diffs
import AdapterWs.Presence.FieldBudget
import AdapterWs.Wire.Lockstep
import AdapterWs.Wire.FaithfulReads
import AdapterWs.Wire.KeyFrames
import AdapterWs.Smooth.CommandBatch
import AdapterWs.RateLimit.IdleBucket
import AdapterWs.Smooth.Acknowledged
import AdapterWs.Smooth.Pacing
import AdapterWs.Smooth.Prediction
import AdapterWs.RateLimit.Isolation
import AdapterWs.Dedup.Guarantee
import AdapterWs.Egress.Refusals
import AdapterWs.Coalesce.Calls
import AdapterWs.SlidingWindow.Folding
import AdapterWs.SlidingWindow.Bursts
import AdapterWs.Cluster.RestartAccounting
import AdapterWs.StateHash.Divergence
import AdapterWs.StateHash.ActiveTopics
import AdapterWs.Membership.Accounting
import AdapterWs.Groups.Group
import AdapterWs.Pressure.Posture
import AdapterWs.Client.BatchFrame
import AdapterWs.Client.SendQueue
