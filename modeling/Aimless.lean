import Aimless.Lib.Largest
import Aimless.Lib.Words
import Aimless.Lib.TextCodec
import Aimless.Lib.Table
import Aimless.Lib.Runs
import Aimless.Lib.Unwinding
import Aimless.Envelope
import Aimless.Proofs.Envelope
import Aimless.Journal
import Aimless.Attachments
import Aimless.Mail
import Aimless.Api
import Aimless.Proofs.Separate
import Aimless.Proofs.Inbox
import Aimless.Proofs.History
import Aimless.Proofs.Mail
import Aimless.Proofs.Isolation
import Aimless.Proofs.Unsaved
import Aimless.Proofs.Blocking
import Aimless.Proofs.Receive
import Aimless.Proofs.Sendable
import Aimless.Lib.Replace
import Aimless.Persist
import Aimless.Proofs.Persist
import Aimless.Network
import Aimless.Proofs.Delivery
import Aimless.Lib.Python
import Aimless.Protocol
import Aimless.Store
import Aimless.Service
import Aimless.CatchUp
import Aimless.Files
import Aimless.Lib.Posix
import Aimless.Proofs.Sync
import Aimless.Proofs.CatchUp
import Aimless.Proofs.Files
import Aimless.DaemonClient
import Aimless.Proofs.DaemonClient
import Aimless.Proofs.Budget
import Aimless.Proofs.Chunks
import Aimless.Lib.Ranked
import Aimless.Proofs.Eviction
import Aimless.Proofs.Reports
import Aimless.Deliveries
import Aimless.Proofs.Deliveries
import Aimless.Dismiss
import Aimless.Proofs.Rows
import Aimless.Proofs.Dismiss
import Aimless.Proofs.Dismissed
import Aimless.Window
import Aimless.Proofs.Filing
import Aimless.Proofs.Window
import Aimless.Proofs.Strangers
import Aimless.Proofs.Rooms
import Aimless.Proofs.Authentic
import Aimless.Transfers
import Aimless.Proofs.Transfers
import Aimless.Lib.SortKeys
import Aimless.Lib.JsonText
import Aimless.Seal
import Aimless.Proofs.Seal
import Aimless.Peers
import Aimless.Proofs.Peers
import Aimless.Proofs.Merge
import Aimless.Proofs.Live
import Aimless.Proofs.Attribution
import Aimless.Presence
import Aimless.Proofs.Presence
import Aimless.Contacts
import Aimless.Backup
import Aimless.Fanout
import Aimless.Multiplex
import Aimless.Sending
import Aimless.Proofs.Contacts
import Aimless.Proofs.Backup
import Aimless.Proofs.Fanout
import Aimless.Proofs.Multiplex
import Aimless.Proofs.ChunkSize
import Aimless.Proofs.Sending
import Aimless.Proofs.Reassembly
import Aimless.Proofs.FileDelivery
import Aimless.Lib.Radix
import Aimless.Proofs.Invites
import Aimless.Proofs.RoomId
import Aimless.Keys
import Aimless.Proofs.Keys
import Aimless.Writer
import Aimless.Proofs.Writer
import Aimless.Proofs.Flush
import Aimless.Linkify
import Aimless.Proofs.Linkify
import Aimless.Archive
import Aimless.Proofs.Archive
import Aimless.Proofs.Unread
import Aimless.Proofs.OwnMail
import Aimless.Proofs.Ticks
import Aimless.Proofs.Progress
import Aimless.Proofs.Order
import Aimless.Proofs.Pacing
import Aimless.Proofs.Provenance
import Aimless.Lib.Threads
import Aimless.Routines
import Aimless.Proofs.Routines
import Aimless.ApiServer
import Aimless.Proofs.ApiServer
import Aimless.Proofs.Storage
import Aimless.Proofs.RoomDelivery
import Aimless.Proofs.Heard
import Aimless.ApiSession
import Aimless.Proofs.ApiSession
import Aimless.Chat
import Aimless.Proofs.Chat
