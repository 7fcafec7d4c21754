import Unserding.Foundation.Buffer
import Unserding.Foundation.System
import Unserding.Foundation.Outbox
import Unserding.Wire
import Unserding.Sending
import Unserding.Records
import Unserding.Containment
import Unserding.Decoding
import Unserding.Replies
import Unserding.Storm
import Unserding.Foundation.Mailbox
import Unserding.Publishing
import Unserding.Delivery
import Unserding.Control
import Unserding.Ping
import Unserding.Monitor
import Unserding.MonitorPing
import Unserding.Foundation.Resend
import Unserding.Forward
import Unserding.Router
import Unserding.Foundation.Roster
import Unserding.Dealer
import Unserding.Splice
import Unserding.Bridge
import Unserding.Slots
import Unserding.Foundation.Ledger
import Unserding.Handles
import Unserding.Teardown
import Unserding.Foundation.CString
import Unserding.Logger
import Unserding.Foundation.Paged
import Unserding.Registry
import Unserding.Conn
import Unserding.Addresses
import Unserding.Foundation.LowBit
import Unserding.PongSet
import Unserding.Foundation.Undo
import Unserding.Btea
import Unserding.Foundation.Periods
import Unserding.Calendar
import Unserding.Foundation.Traffic
import Unserding.Peers
import Unserding.Pinger
import Unserding.Foundation.Batching
import Unserding.Batching
import Unserding.Foundation.Shared
import Unserding.Sockets
import Unserding.Turns
import Unserding.Foundation.Relay
import Unserding.Relaying
import Unserding.Foundation.Cursor
import Unserding.Foundation.Text
import Unserding.Lines
import Unserding.Transcript
import Unserding.Foundation.Throttle
import Unserding.Activity
import Unserding.Reconnect
import Unserding.Foundation.Gaps
import Unserding.Losses
import Unserding.Recording
import Unserding.Foundation.Streams
import Unserding.Uplinks
