import Miniob.Storage.Bytes
import Miniob.Parse.Value
import Miniob.Parse.Numeral
import Miniob.Executor.Value
import Miniob.Parse.Date
import Miniob.Executor.FloatText
import Miniob.Storage.Meta
import Miniob.Storage.Record
import Miniob.Storage.Component
import Miniob.Storage.Trx
import Miniob.Storage.Table
import Miniob.Storage.Scan
import Miniob.Storage.Rollback
import Miniob.Storage.IndexConsistency
import Miniob.Storage.Atomicity
import Miniob.Storage.NullFlags
import Miniob.Storage.ScanAgreement
import Miniob.Storage.IndexRun
import Miniob.Storage.Catalog
import Miniob.Storage.Statements
import Miniob.Storage.Commit
import Miniob.Storage.CommitRun
import Miniob.Storage.Bounds
import Miniob.Storage.Create
