import Tewta.Lib.Transition
import Tewta.Lib.ByteString
import Tewta.Lib.Sha256
import Tewta.Lib.Framing
import Tewta.Lib.Duplex
import Tewta.Lib.Broadcast
import Tewta.Lib.SortDedup
import Tewta.Lib.Outcome
import Tewta.Lib.Vec
import Tewta.Lib.Mutex
import Tewta.Lib.Utf8
import Tewta.Lib.Hex
import Tewta.Hash
import Tewta.Peers
import Tewta.Peers.Bucket
import Tewta.Peers.Distance
import Tewta.Peers.KeyId
import Tewta.Peers.Text
import Tewta.Packets
import Tewta.Packets.Layout
import Tewta.SegmentedArray
import Tewta.SegmentedArray.Removal
import Tewta.SegmentedArray.Commit
import Tewta.SegmentedArray.Layout
import Tewta.SegmentedArray.Partial
import Tewta.Handshake.Machine
import Tewta.Handshake.Course
import Tewta.Handshake.Agreement
import Tewta.Handshake.Attacker
import Tewta.Handshake.Secrecy
import Tewta.Handshake.Pairing
import Tewta.Handshake.Dialling
import Tewta.Handshake.Standing
import Tewta.Handshake.Standing.Steps
import Tewta.Handshake.Crossing
import Tewta.Handshake.Refusal
import Tewta.Handshake.Meeting
import Tewta.Node.Connections
import Tewta.Node.Discovery
import Tewta.Node.SendPacket
import Tewta.Node.Dht
import Tewta.Node.OnPacket
import Tewta.Node.System
import Tewta.Node.Disconnect
import Tewta.Node.Alive
import Tewta.Node.Attached
import Tewta.Node.Reading
import Tewta.Node.Serial
import Tewta.Node.Joining
import Tewta.Node.Buckets
import Tewta.Node.Responses
import Tewta.Node.Answers
import Tewta.Node.Requests
import Tewta.Node.Requests.Invariant
import Tewta.Node.Requests.Runs
import Tewta.Node.Requests.Removals
import Tewta.Node.Correlation
import Tewta.Node.Ping
import Tewta.Node.Waiting
import Tewta.Node.DhtSearch
import Tewta.Node.DhtSearch.Order
import Tewta.Node.DhtSearch.Ending
import Tewta.Node.DhtLookup
import Tewta.Node.DhtLookup.Runs
import Tewta.Node.DhtLookup.Temporary
import Tewta.Node.DhtLookup.Search
import Tewta.Node.DiscoverPeers
import Tewta.Node.DiscoverPeers.Tried
import Tewta.Node.DiscoverPeers.Ending
import Tewta.Node.DiscoverPeers.Dials
import Tewta.Node.Refresh
import Tewta.Node.Refresh.Counting
import Tewta.Node.Events
import Tewta.Node.Admission
import Tewta.Node.Hangup
import Tewta.Node.Hangup.Announced
import Tewta.Node.Upkeep
import Tewta.Node.Stall
import Tewta.Node.Deadlock
import Tewta.Commands.Parsing
import Tewta.Commands.Grammar
import Tewta.Commands.Conversions
import Tewta.Commands.Panics
import Tewta.Stream
import Tewta.Stream.Delivery
import Tewta.Stream.Wakeups
import Tewta.Stream.Transport
import Tewta.Network
import Tewta.Network.Lookup
import Tewta.Network.Discovery
import Tewta.Network.Parting
