import ZBid.Ledger
import ZBid.Ticks
import ZBid.Watchers
import ZBid.Requests
import ZBid.Refusals
import ZBid.Lookups
import ZBid.Reachable
import ZBid.Lib.Decimal
import ZBid.ClientThread
import ZBid.Interleaving
import ZBid.Sbuf
import ZBid.Buffers
import ZBid.Answers
import ZBid.Malformed
import ZBid.Notices
import ZBid.Reports
import ZBid.Overflow
import ZBid.Tokenizer
import ZBid.Lib.LockOrder
import ZBid.Locks
import ZBid.Locality
import ZBid.Credentials
import ZBid.HandOff
import ZBid.Lib.WorkQueue
import ZBid.QueueMemory
import ZBid.RunTick
import ZBid.JobOrder
import ZBid.Decoding
import ZBid.SaleLines
import ZBid.RoundTrip
import ZBid.Usrlist
import ZBid.ListOrder
import ZBid.Commuting
import ZBid.House
import ZBid.HouseView
import ZBid.Funds
import ZBid.HouseCalls
import ZBid.HouseRun
import ZBid.Deadline
import ZBid.Lib.Chains
import ZBid.ListScript
import ZBid.Durations
import ZBid.Race
import ZBid.Replica
import ZBid.Program
import ZBid.ProcessRefines
import ZBid.Delivery
import ZBid.Lib.Escapes
import ZBid.MiniClient
import ZBid.Typed
import ZBid.Alphabet
import ZBid.Lib.PyRepr
import ZBid.Screen
import ZBid.Dialogue
import ZBid.Shutdown
import ZBid.Concurrent
import ZBid.TickThread
import ZBid.Malformed
