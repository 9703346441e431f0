import CprFormal.Library.FlatMemory
import CprFormal.Library.Search
import CprFormal.Library.Occurrence
import CprFormal.Library.Lists
import CprFormal.Library.SizeT
import CprFormal.Library.SignedInt
import CprFormal.Library.LinkedList
import CprFormal.Library.Ring
import CprFormal.Library.ByteBits
import CprFormal.Library.Transition
import CprFormal.Library.Monitor
import CprFormal.Library.Population
import CprFormal.Library.Hexadecimal
import CprFormal.Library.Decimal
import CprFormal.Library.CellRow
import CprFormal.Library.ByteOrder
import CprFormal.Library.Freeing
import CprFormal.Library.Joined
import CprFormal.Library.Lines
import CprFormal.Library.Patches
import CprFormal.Library.FirstFit
import CprFormal.Library.Guarded
import CprFormal.Library.Simulation
import CprFormal.Library.Mutex
import CprFormal.Pipeline.Model
import CprFormal.Pipeline.Lock
import CprFormal.Pipeline.Fifo
import CprFormal.Pipeline.Close
import CprFormal.Pipeline.Wakeups
import CprFormal.Pipeline.Sizes
import CprFormal.Pipeline.Linearizable
import CprFormal.Thread.Condlock
import CprFormal.Thread.CondlockExclusion
import CprFormal.Thread.CondlockWakeup
import CprFormal.Thread.Semaphore
import CprFormal.Thread.GuardedData
import CprFormal.Thread.Waitgroup
import CprFormal.Thread.WaitgroupFinish
import CprFormal.Strchar.Ctype
import CprFormal.Strchar.Strlen
import CprFormal.Strchar.Compare
import CprFormal.Strchar.Strcpy
import CprFormal.Strchar.Split
import CprFormal.Strchar.Strlong
import CprFormal.Strtype.Model
import CprFormal.Strtype.Bounded
import CprFormal.Strtype.Capacity
import CprFormal.Strtype.Narrowing
import CprFormal.Bufio.Model
import CprFormal.Bufio.Reader
import CprFormal.Bufio.Writer
import CprFormal.Bufio.WriteArea
import CprFormal.Bufio.Duplex
import CprFormal.Bufio.Refill
import CprFormal.Bufio.FirstLine
import CprFormal.Bufio.Termination
import CprFormal.Bufio.FixedReads
import CprFormal.Bufio.Conversation
import CprFormal.Bufio.LineExchange
import CprFormal.Memio.Model
import CprFormal.Memio.StreamLines
import CprFormal.Memio.Cursors
import CprFormal.Memio.Texts
import CprFormal.Memio.Provenance
import CprFormal.Memio.Splitting
import CprFormal.Memio.LineQueue
import CprFormal.Mempager.Model
import CprFormal.Mempager.Safety
import CprFormal.Mempager.Runs
import CprFormal.Mempager.FirstFit
import CprFormal.Mempager.Admission
import CprFormal.Mempager.Alignment
import CprFormal.Mempager.Strdup
import CprFormal.Memshare.Sharing
import CprFormal.Sync.Model
import CprFormal.Sync.Deadline
import CprFormal.Sync.Adjust
import CprFormal.Sync.Expires
import CprFormal.Endian.Model
import CprFormal.Endian.Codecs
import CprFormal.Endian.Packets
import CprFormal.Address.Model
import CprFormal.Address.Presentation
import CprFormal.Address.Getbind
import CprFormal.Address.RoundTrip
import CprFormal.Multicast.Model
import CprFormal.Multicast.Memberships
import CprFormal.System.Getline
import CprFormal.System.ScanFile
import CprFormal.System.LineReading
import CprFormal.Events.Model
import CprFormal.Events.Latch
import CprFormal.Events.Builds
import CprFormal.Hexcode.Model
import CprFormal.Hexcode.Pairs
import CprFormal.Hexcode.RoundTrip
import CprFormal.Socket.Model
import CprFormal.Socket.Editing
import CprFormal.Socket.Codes
import CprFormal.Socket.Echo
import CprFormal.Socket.Putline
import CprFormal.Socket.Peers
import CprFormal.Socket.PeerLines
import CprFormal.Bitset.Model
import CprFormal.Bitset.FiniteSet
import CprFormal.Bitset.Queries
import CprFormal.Keyfile.Model
import CprFormal.Keyfile.Chunks
import CprFormal.Keyfile.Grammar
import CprFormal.Keyfile.Outline
import CprFormal.Keyfile.Loader
import CprFormal.Keyfile.Loaded
import CprFormal.Keyfile.Saved
import CprFormal.Keyfile.RoundTrip
import CprFormal.Keyfile.Resave
import CprFormal.Keyfile.Lines
import CprFormal.Keyfile.LineBuffer
import CprFormal.Keyfile.Files
import CprFormal.Keyfile.Indentation
import CprFormal.Keyfile.Overlong
import CprFormal.Keyfile.Store
import CprFormal.Keyfile.Sections
import CprFormal.Keyfile.Freeing
import CprFormal.Keyfile.Linked
import CprFormal.Keyfile.Shelf
import CprFormal.Keyfile.Placement
import CprFormal.Strchar.Bound
