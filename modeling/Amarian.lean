import Amarian.Consensus.WireFormat
import Amarian.Chain.Txids
import Amarian.Util.Reader
import Amarian.Crypto.Sha256
import Amarian.Consensus.Asert
import Amarian.Consensus.Emission
import Amarian.Consensus.Genesis
import Amarian.Consensus.Validation
import Amarian.Utxo.Worth
import Amarian.Utxo.Reversal
import Amarian.Utxo.Layers
import Amarian.Utxo.UndoCodec
import Amarian.Chain.IndexInvariant
import Amarian.Chain.Transitions
import Amarian.Chain.Supply
import Amarian.Chain.Verdicts
import Amarian.Chain.TipOrder
import Amarian.Chain.Convergence
import Amarian.Chain.Reconnection
import Amarian.Consensus.Authorisation
import Amarian.Mempool.Refusal
import Amarian.Mempool.Eviction
import Amarian.Mempool.Connected
import Amarian.Net.Connection
import Amarian.Chain.IndexRuns
import Amarian.Chain.MedianTime
import Amarian.Consensus.Monotone
import Amarian.Chain.TotalWork
import Amarian.Chain.Switching
import Amarian.Chain.Termination
import Amarian.Primitives.Binding
import Amarian.Mining.Acceptable
import Amarian.Mining.Building
import Amarian.Mining.Line
import Amarian.Mining.Overfull
import Amarian.Rpc.Identifiers
import Amarian.Rpc.Agreement
import Amarian.Rpc.Arguments
import Amarian.Node.BlockFile
import Amarian.Net.Completion
import Amarian.Net.AddressBook
import Amarian.Net.RoundTrip
import Amarian.Net.Slots
import Amarian.Net.Redial
import Amarian.Net.Locator
import Amarian.Net.Bans
import Amarian.Net.Sync
import Amarian.Net.Pair
import Amarian.Wallet.AddressText
import Amarian.Wallet.Canonical
import Amarian.Wallet.Sending
import Amarian.Wallet.Fewest
import Amarian.Wallet.Fees
import Amarian.Wallet.History
import Amarian.Wallet.Maturity
import Amarian.Wallet.Recovery
import Amarian.Chain.Survivors
import Amarian.Storage.LoadChain
import Amarian.Storage.Reloading
import Amarian.Storage.LostHeaders
import Amarian.Storage.CommittedTip
import Amarian.Storage.Restarts
