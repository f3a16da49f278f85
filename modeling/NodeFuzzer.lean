import NodeFuzzer.Library.Exec
import NodeFuzzer.Library.Append
import NodeFuzzer.Library.OrdMap
import NodeFuzzer.Library.Bytes
import NodeFuzzer.Library.Nom
import NodeFuzzer.Encoding.Types
import NodeFuzzer.Encoding.Hex
import NodeFuzzer.Encoding.BinaryWriter
import NodeFuzzer.Encoding.Buffer
import NodeFuzzer.Encoding.Nom
import NodeFuzzer.Encoding.Path
import NodeFuzzer.Encoding.Derive
import NodeFuzzer.Encoding.WellFormed
import NodeFuzzer.Encoding.RoundTrip
import NodeFuzzer.Encoding.Size
import NodeFuzzer.Encoding.Accepted
import NodeFuzzer.Encoding.PathCodec
import NodeFuzzer.Encoding.Framed
import NodeFuzzer.Library.Bits
import NodeFuzzer.Encoding.Zarith
import NodeFuzzer.Messages.Peer
import NodeFuzzer.Messages.BinaryMessage
import NodeFuzzer.Messages.SizeFromChunk
import NodeFuzzer.Context.Types
import NodeFuzzer.Context.OcamlHash
import NodeFuzzer.Context.Inode
import NodeFuzzer.Context.Hash
import NodeFuzzer.Context.HashSpec
import NodeFuzzer.Context.KvStore
import NodeFuzzer.Context.ReadonlyIpc
import NodeFuzzer.Context.Directory
import NodeFuzzer.Context.WorkingTree
import NodeFuzzer.Context.TezedgeContext
import NodeFuzzer.Context.Sound
import NodeFuzzer.Context.Committing
import NodeFuzzer.Context.ReadonlyHash
import NodeFuzzer.Context.Gc
import NodeFuzzer.Context.Slots
import NodeFuzzer.Context.InMemory
import NodeFuzzer.Context.Quiet
import NodeFuzzer.Context.Releasing
import NodeFuzzer.Context.History
import NodeFuzzer.Context.Lookup
import NodeFuzzer.Context.Laws
import NodeFuzzer.Context.Steady
import NodeFuzzer.Context.TreeRuns
import NodeFuzzer.Context.EmptyDirectories
import NodeFuzzer.Context.Durable
import NodeFuzzer.Context.Ownership
import NodeFuzzer.Context.Recycling
import NodeFuzzer.Context.Retention
import NodeFuzzer.Context.FreeIds
import NodeFuzzer.Spsc.Queue
import NodeFuzzer.Spsc.Closing
import NodeFuzzer.Spsc.Runs
import NodeFuzzer.Spsc.Contents
import NodeFuzzer.Context.PrefixQueries
import NodeFuzzer.Context.StoredWalk
import NodeFuzzer.Context.PrefixListing
import NodeFuzzer.Context.PrefixErrors
import NodeFuzzer.Context.PrefixTree
import NodeFuzzer.Library.Random
import NodeFuzzer.Library.Radix
import NodeFuzzer.Crypto.CryptoBox
import NodeFuzzer.Crypto.Base58
import NodeFuzzer.Crypto.Hash
import NodeFuzzer.Crypto.SeededStep
import NodeFuzzer.Messages.BinaryChunk
import NodeFuzzer.Messages.SignatureKeys
import NodeFuzzer.Generator.RandomState
import NodeFuzzer.Generator.Chunks
import NodeFuzzer.Generator.Pushed
import NodeFuzzer.Generator.Received
import NodeFuzzer.Generator.Fitness
import NodeFuzzer.P2pFuzzer.ChunkBuffer
import NodeFuzzer.P2pFuzzer.Progress
import NodeFuzzer.P2pFuzzer.ReadMsg
import NodeFuzzer.Context.Grafting
import NodeFuzzer.Context.Contents
import NodeFuzzer.Context.Fold
import NodeFuzzer.Context.Listing
import NodeFuzzer.Context.Regular
import NodeFuzzer.Context.Membership
import NodeFuzzer.Context.Honest
import NodeFuzzer.Context.Subtrees
import NodeFuzzer.Context.Merkle
import NodeFuzzer.Context.Equality
import NodeFuzzer.Generator.Cache
import NodeFuzzer.Context.Marking
import NodeFuzzer.Context.Draining
import NodeFuzzer.Context.Reachable
import NodeFuzzer.Context.Tidy
import NodeFuzzer.Context.Numbering
import NodeFuzzer.Context.Gathering
import NodeFuzzer.Context.Safety
import NodeFuzzer.Crypto.ProofOfWork
import NodeFuzzer.Library.Utf8
import NodeFuzzer.Generator.Strings
import NodeFuzzer.Library.Json
import NodeFuzzer.RpcFuzzer.Reply
import NodeFuzzer.Library.JsonText
import NodeFuzzer.RpcFuzzer.RandomJson
import NodeFuzzer.RpcFuzzer.Malformed
import NodeFuzzer.Spsc.Fifo
import NodeFuzzer.Library.Rpc
import NodeFuzzer.Context.ContextIpc
import NodeFuzzer.Wrapper.ProtocolService
import NodeFuzzer.Wrapper.WriteGate
import NodeFuzzer.Messages.Handshake
import NodeFuzzer.P2pFuzzer.WriteMsg
import NodeFuzzer.P2pFuzzer.Session
import NodeFuzzer.P2pFuzzer.Speaking
import NodeFuzzer.P2pFuzzer.PeerMessages
import NodeFuzzer.P2pFuzzer.Fuzz
import NodeFuzzer.Library.Transition
import NodeFuzzer.Interop.Runtime
import NodeFuzzer.Encoding.Canonical
import NodeFuzzer.Messages.Accepting
import NodeFuzzer.Generator.Blocks
