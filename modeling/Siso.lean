import Siso.Heap
import Siso.Semaphore.Prioritized
import Siso.Semaphore.Invariant
import Siso.Semaphore.Properties
import Siso.Semaphore.Progress
import Siso.Go.Strings
import Siso.Go.Filepath
import Siso.Go.Clean
import Siso.Go.Os
import Siso.Flush
import Siso.Retry
import Siso.Hashfs.FileSystem
import Siso.Hashfs.Follow
import Siso.Hashfs.Open
import Siso.Toolsupport.ScanDepsParams
import Siso.Toolsupport.Rspfile
import Siso.Toolsupport.DepsArgs
import Siso.Scandeps.PathTable
import Siso.Query.Graph
import Siso.Query.Targets
import Siso.Query.Commands
import Siso.Query.Digraph
import Siso.Metrics.Cmp
import Siso.Build.EdgeHash
import Siso.Reapi.Bytestreamio
import Siso.Reapi.WriterContract
import Siso.Reapi.ReaderContract
import Siso.Reapi.Option
import Siso.Cred.Helper
import Siso.Ps.Render
import Siso.Cred.LuciAuth
