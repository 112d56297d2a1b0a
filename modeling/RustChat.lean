import RustChat.Runs
import RustChat.TaskPool
import RustChat.Throttle
import RustChat.ThrottleInvariant
import RustChat.ThrottleClock
import RustChat.ThrottleRate
import RustChat.ThrottleOrder
import RustChat.Utf8
import RustChat.Protocol
import RustChat.LineReader
import RustChat.LineFraming
import RustChat.ReadRounds
import RustChat.Broadcast
import RustChat.VoteBoard
import RustChat.VoteIntegrity
import RustChat.Room
import RustChat.Handler
import RustChat.HandlerSteps
import RustChat.Accept
import RustChat.AcceptInvariant
import RustChat.Hub
import RustChat.Delivery
import RustChat.Server
import RustChat.Cleanup
import RustChat.GracefulShutdown
import RustChat.Tui
import RustChat.TuiInput
import RustChat.PeerCount
import RustChat.TitleUnderflow
import RustChat.SnapshotOrder
import RustChat.FrameRoundTrip
import RustChat.Fickle
import RustChat.FickleBarrier
import RustChat.Text
import RustChat.Ratio
import RustChat.RatioGrammar
import RustChat.Apportion
import RustChat.Allocation
import RustChat.Plurality
import RustChat.SnapshotPick
import RustChat.MixedScenario
import RustChat.Json
import RustChat.ServerLine
import RustChat.RecvLoop
import RustChat.LossCheck
import RustChat.EchoTimes
import RustChat.VoteConservation
import RustChat.VoteAgreement
import RustChat.VoteObserver
import RustChat.Footprint
import RustChat.ChatBookkeeping
import RustChat.Settling
import RustChat.WaitFree
import RustChat.ShutdownCompletion
import RustChat.ChatRoom
import RustChat.RoomRefinement
import RustChat.World
import RustChat.Wire
import RustChat.Terminals
import RustChat.NormalBots
import RustChat.NormalScenario
import RustChat.Revote
import RustChat.FickleBots
import RustChat.Rounding
import RustChat.VoteShare
import RustChat.Screens
import RustChat.CausalOrder
import RustChat.Scenario
import RustChat.ReportText
import RustChat.Reporter
