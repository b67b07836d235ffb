import Openlake.CappedListing
import Openlake.CompletionRetry
import Openlake.DeleteBatch
import Openlake.DeleteBucket
import Openlake.FormatRecovery
import Openlake.KvGets
import Openlake.KvKeys
import Openlake.KvSaves
import Openlake.KvSharding
import Openlake.ListVsStat
import Openlake.LockLoss
import Openlake.ParityArithmetic
import Openlake.PoolBudget
import Openlake.PutThenGet
import Openlake.RdmaCalls
import Openlake.RemoteAnswers
import Openlake.RenameFaults
import Openlake.RequestedVersion
import Openlake.Rollup
import Openlake.TailCorruption
import Openlake.XlMetaBounds
