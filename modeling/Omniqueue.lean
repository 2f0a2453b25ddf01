import Omniqueue.FrameBytes
import Omniqueue.FrameCodec
import Omniqueue.RedisLists
import Omniqueue.FallbackAcker
import Omniqueue.FallbackConsumer
import Omniqueue.ReaperIteration
import Omniqueue.ReaperCommands
import Omniqueue.InterleavedEngine
import Omniqueue.RoundTrip
import Omniqueue.VisibilityTimeout
import Omniqueue.AckRace
import Omniqueue.AttemptCounts
import Omniqueue.EntryAccounting
import Omniqueue.SingleReaper
import Omniqueue.DynConsumer
import Omniqueue.AddToMainQueue
import Omniqueue.RejectedFrame
import Omniqueue.MessageAccounting
import Omniqueue.ReaperProgress
import Omniqueue.QueueRefinement
