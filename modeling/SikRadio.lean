import SikRadio.Foundations.BlockQueue
import SikRadio.Foundations.BlockRounds
import SikRadio.Foundations.ByteOrder
import SikRadio.Foundations.CheckedRuns
import SikRadio.Foundations.Cursors
import SikRadio.Foundations.DescriptorTable
import SikRadio.Foundations.LockJams
import SikRadio.Foundations.LockOrder
import SikRadio.Foundations.Logs
import SikRadio.Foundations.MemoryCells
import SikRadio.Foundations.Occurrences
import SikRadio.Foundations.OrderedNodes
import SikRadio.Foundations.ResetMatcher
import SikRadio.Foundations.RingOffsets
import SikRadio.Foundations.SeparatedText
import SikRadio.Foundations.Spacing
import SikRadio.Foundations.StreamWindow
import SikRadio.Foundations.Word64
import SikRadio.Common.Process
import SikRadio.Common.SignalHandler
import SikRadio.Common.UdpSocket
import SikRadio.Common.AudioPacket
import SikRadio.Common.RadioStation
import SikRadio.Common.ControlDatagrams
import SikRadio.Common.CircularBuffer
import SikRadio.Common.RingInvariant
import SikRadio.Common.RingWindow
import SikRadio.Common.WindowWalk
import SikRadio.Common.PutFaults
import SikRadio.Common.SlotProvenance
import SikRadio.Common.AudioPacketCodec
import SikRadio.Common.RexmitGrammar
import SikRadio.Common.LookupReplies
import SikRadio.Common.AnnouncementGrammar
import SikRadio.Common.GapFill
import SikRadio.Common.ForwardPush
import SikRadio.Common.DumpTail
import SikRadio.Common.KeptStream
import SikRadio.Common.GapCount
import SikRadio.Receiver.Playback
import SikRadio.Receiver.PlaybackSteps
import SikRadio.Receiver.PlaybackOrder
import SikRadio.Receiver.HostileDatagrams
import SikRadio.Receiver.LossBurst
import SikRadio.Receiver.Reached
import SikRadio.Receiver.Underrun
import SikRadio.Receiver.Sessions
import SikRadio.Receiver.PlaybackStart
import SikRadio.Receiver.Gapless
import SikRadio.Receiver.StationSwitch
import SikRadio.Receiver.WholePayloads
import SikRadio.Receiver.Stations
import SikRadio.Receiver.Announcements
import SikRadio.Receiver.StationSteps
import SikRadio.Receiver.LiveStations
import SikRadio.Receiver.ExpirySweep
import SikRadio.Receiver.UiMenu
import SikRadio.Receiver.CommandInput
import SikRadio.Receiver.ClientTable
import SikRadio.Receiver.ArrowKeys
import SikRadio.Receiver.Broadcast
import SikRadio.Receiver.MenuChanges
import SikRadio.Receiver.MenuFreshness
import SikRadio.Receiver.SweepHalves
import SikRadio.Receiver.Directory
import SikRadio.Receiver.KeyWalk
import SikRadio.Receiver.CurrentStation
import SikRadio.Receiver.DataSocket
import SikRadio.Receiver.RexmitSender
import SikRadio.Receiver.MissingScan
import SikRadio.Receiver.RequestedIds
import SikRadio.Receiver.RequestLength
import SikRadio.Receiver.SessionRuns
import SikRadio.Receiver.LongestRequests
import SikRadio.Receiver.Locking
import SikRadio.Sender.AudioSender
import SikRadio.Sender.PacketCache
import SikRadio.Sender.ReachedCache
import SikRadio.Sender.Controller
import SikRadio.Sender.Retransmitter
import SikRadio.Sender.Answers
import SikRadio.Sender.Configurations
import SikRadio.Sender.RequestClasses
import SikRadio.Sender.RexmitJobs
import SikRadio.Sender.OverwrittenSlot
import SikRadio.Sender.ServedRequests
import SikRadio.Sender.Locking
import SikRadio.Protocol.Retransmission
import SikRadio.Protocol.Transmission
import SikRadio.Protocol.Discovery
