import CppMiner.Config.Agreement
import CppMiner.Config.DefaultLayout
import CppMiner.Config.Numbers
import CppMiner.Config.Passes
import CppMiner.Config.Reading
import CppMiner.Hash.Calls
import CppMiner.Hash.HashAlgorithm
import CppMiner.Hash.UnwrittenLanes
import CppMiner.Lib.Transition
import CppMiner.Miner.AbsorbedBlob
import CppMiner.Miner.BlobAccess
import CppMiner.Miner.BlobDivision
import CppMiner.Miner.ClassicNonces
import CppMiner.Miner.Coverage
import CppMiner.Miner.Extranonce2
import CppMiner.Miner.Hashrate
import CppMiner.Miner.HeaderDivision
import CppMiner.Miner.NonceField
import CppMiner.Miner.Thresholds
import CppMiner.Network.Accounting
import CppMiner.Network.Authorization
import CppMiner.Network.Connect
import CppMiner.Network.Effects
import CppMiner.Network.Extranonce
import CppMiner.Network.Handshake
import CppMiner.Network.Ids
import CppMiner.Network.Shares
import CppMiner.Network.Stopping
import CppMiner.Network.Streams
import CppMiner.Network.Url
import CppMiner.Program.CleanJobs
import CppMiner.Program.Conversions
import CppMiner.Program.ShareDifficulty
import CppMiner.Program.ShareLog
import CppMiner.Program.ShareSessions
import CppMiner.Program.Snapshots
import CppMiner.Program.Staleness
import CppMiner.Program.Verification
import CppMiner.Threading.SharedQueue
import CppMiner.Threading.Shutdown
import CppMiner.Threading.Tasks
import CppMiner.Threading.Termination
import CppMiner.Utils.Encoding
import CppMiner.Utils.Members
import CppMiner.Utils.Progress
