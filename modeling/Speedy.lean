import Speedy.Lib.Words
import Speedy.Lib.ByteStore
import Speedy.Chunkserver.Format
import Speedy.Chunkserver.Parser
import Speedy.Chunkserver.ParserSound
import Speedy.Chunkserver.Recovery
import Speedy.Chunkserver.RwBuffer
import Speedy.Chunkserver.Worker
import Speedy.Chunkserver.Append
import Speedy.Chunkserver.Server
import Speedy.Chunkserver.Handlers
import Speedy.Chunkserver.Startup
import Speedy.Chunkserver.Ledger
import Speedy.Lib.Run
import Speedy.Chunkserver.Outcomes
import Speedy.Chunkserver.LedgerInv
import Speedy.Chunkserver.LedgerSteps
import Speedy.Chunkserver.RequestSim
import Speedy.Chunkserver.Simulation
import Speedy.Chunkserver.Runs
import Speedy.Chunkserver.Restart
import Speedy.Chunkmaster.AllocFid
import Speedy.Imageserver.Fids
import Speedy.Cluster.FidRuns
import Speedy.Imageserver.KeyList
import Speedy.Imageserver.Meta
import Speedy.Driver.Multipart
import Speedy.Cluster.Multipart
import Speedy.Imageserver.ConcurrentStore
import Speedy.Chunkserver.BookSim
import Speedy.Chunkserver.Accounts
import Speedy.Chunkserver.Bounds
import Speedy.Chunkserver.Framing
import Speedy.Chunkserver.Progress
import Speedy.Chunkserver.Asserts
import Speedy.Chunkserver.RwChain
import Speedy.Chunkserver.Responses
import Speedy.Cluster.Requests
import Speedy.Chunkserver.HotDump
import Speedy.Imageserver.GroupSelection
import Speedy.Chunkserver.Placement
import Speedy.Cluster.Placement
import Speedy.Imageserver.ConnPools
import Speedy.Chunkmaster.ServerInfo
import Speedy.Chunkmaster.Agreement
import Speedy.Chunkserver.Checksum
import Speedy.Chunkserver.RecordSum
import Speedy.Chunkserver.Damage
import Speedy.Chunkserver.DumpFile
import Speedy.Chunktool.DumpClient
import Speedy.Imageserver.Upload
import Speedy.Imageserver.Routes
import Speedy.Chunkmaster.Handlers
import Speedy.Chunkmaster.GlobalStatus
import Speedy.Cluster.Transfer
import Speedy.Chunkserver.Boot
import Speedy.Chunkserver.Sweep
import Speedy.Lib.Fields
import Speedy.Chunktool.QueryDetails
import Speedy.Imageserver.Fragments
import Speedy.Imageserver.StoreFailure
import Speedy.Cluster.Move
import Speedy.Cluster.Content
import Speedy.Driver.StreamWrite
import Speedy.Driver.StreamRead
import Speedy.Driver.StreamReadRuns
import Speedy.Imageserver.Listing
import Speedy.Cluster.Presence
import Speedy.Speedytool.PostFile
import Speedy.Chunkmaster.Batch
import Speedy.Chunkserver.WorkQueue
import Speedy.Lib.FormatJson
import Speedy.Cluster.Route
import Speedy.Lib.FormatLayout
import Speedy.Cluster.RouteLayout
import Speedy.Cluster.RouteSurvives
import Speedy.Chunkserver.Lives
import Speedy.Chunkserver.Orders
import Speedy.Cluster.Exchange
import Speedy.Chunkserver.Report
import Speedy.Cluster.ReportText
