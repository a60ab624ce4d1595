import Keepstone.Lib.Text
import Keepstone.Lib.Program
import Keepstone.Lib.Records
import Keepstone.Lib.Interleaving
import Keepstone.Log.Merkle
import Keepstone.Log.Inclusion
import Keepstone.Log.Consistency
import Keepstone.Log.Sth
import Keepstone.Crypto.Gf256
import Keepstone.Crypto.Shamir
import Keepstone.Crypto.Sealing
import Keepstone.Core.Cbor
import Keepstone.Core.Body
import Keepstone.Core.Envelope
import Keepstone.Core.KnownAnswers
import Keepstone.Core.Presence
import Keepstone.Core.Inputs
import Keepstone.Crypto.Stream
import Keepstone.Core.Transmission
import Keepstone.Store.Directory
import Keepstone.Store.Keys
import Keepstone.Store.Drops
import Keepstone.Store.Log
import Keepstone.Store.Appends
import Keepstone.Store.Opening
import Keepstone.Store.Verify
import Keepstone.Node.Net
import Keepstone.Node.Relay
import Keepstone.Node.Protocol
import Keepstone.Node.Pushes
import Keepstone.Node.Serving
import Keepstone.Store.Creation
import Keepstone.Store.Decoys
import Keepstone.Store.Addressing
import Keepstone.Cli.Fetch
import Keepstone.Cli.Runs
import Keepstone.Cli.Overwriting
import Keepstone.Cli.Completeness
import Keepstone.Cli.Transfer
import Keepstone.Lib.Chain
import Keepstone.Log.Anchor
import Keepstone.Log.Commitment
import Keepstone.Core.Codec
import Keepstone.Node.Replies
import Keepstone.Lib.Fault
import Keepstone.Store.Contacts
import Keepstone.Store.Listing
import Keepstone.Cli.AnchorFile
import Keepstone.Cli.Anchoring
import Keepstone.Daemon.Handlers
import Keepstone.Daemon.Routing
import Keepstone.Lib.Utf8
import Keepstone.Store.AddressBook
import Keepstone.Store.ContactsFile
import Keepstone.Daemon.Query
import Keepstone.Log.Words
import Keepstone.Node.Truncation
import Keepstone.Core.Capacity
import Keepstone.Core.Place
import Keepstone.Cli.Hunt
import Keepstone.Lib.Layout
import Keepstone.Lib.Search
import Keepstone.Core.Pow
import Keepstone.Core.RoundTrips
import Keepstone.P2p.Providers
import Keepstone.Daemon.Requests
import Keepstone.Daemon.Narrowing
import Keepstone.Lib.Transcript
import Keepstone.Lib.Keyed
import Keepstone.Node.Service
import Keepstone.Node.Witness
import Keepstone.Node.Exchange
import Keepstone.Node.Convergence
import Keepstone.Cli.Heads
import Keepstone.Store.Lasting
import Keepstone.Daemon.Lasting
import Keepstone.Cli.Delivery
import Keepstone.Daemon.Connection
import Keepstone.Cli.Verifier
import Keepstone.Cli.Introduction
