import ShmSpsc.Transition
import ShmSpsc.Circular
import ShmSpsc.Bytes
import ShmSpsc.Layout
import ShmSpsc.Ring
import ShmSpsc.Fifo
import ShmSpsc.Producer
import ShmSpsc.Consumer
import ShmSpsc.Spsc
import ShmSpsc.Exclusion
import ShmSpsc.Decisions
import ShmSpsc.Sequential
import ShmSpsc.Memcpy
import ShmSpsc.Peek
import ShmSpsc.Query
import ShmSpsc.Accepted
import ShmSpsc.Bind
import ShmSpsc.Blocking
import ShmSpsc.Shm
import ShmSpsc.Publication
import ShmSpsc.OwnerWord
import ShmSpsc.Ownership
import ShmSpsc.Creator
import ShmSpsc.Handover
import ShmSpsc.Recovery
import ShmSpsc.Drain
import ShmSpsc.Delivery
import ShmSpsc.Marker
import ShmSpsc.Lifecycle
import ShmSpsc.FailedAttach
import ShmSpsc.Names
import ShmSpsc.Unlinking
import ShmSpsc.Moves
import ShmSpsc.Tokens
import ShmSpsc.Handles
import ShmSpsc.Entry
import ShmSpsc.Sizing
import ShmSpsc.Seats
import ShmSpsc.Registration
import ShmSpsc.Mappings
import ShmSpsc.Tidy
import ShmSpsc.Linearity
import ShmSpsc.Race
import ShmSpsc.Weak
import ShmSpsc.RaceFree
import ShmSpsc.WaitFree
import ShmSpsc.Atomic
import ShmSpsc.Linearization
import ShmSpsc.Message
import ShmSpsc.Demo
import ShmSpsc.Streams
import ShmSpsc.EndToEnd
import ShmSpsc.Struct
import ShmSpsc.ControlBlock
import ShmSpsc.Traffic
import ShmSpsc.Calls
import ShmSpsc.PingPong
import ShmSpsc.RoundTrips
import ShmSpsc.Throughput
import ShmSpsc.Deadline
import ShmSpsc.Startup
import ShmSpsc.Contest
