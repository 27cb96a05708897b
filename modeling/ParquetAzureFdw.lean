import ParquetAzureFdw.Convert.Decimal
import ParquetAzureFdw.Import.Cover
import ParquetAzureFdw.Modify.PastEnd
import ParquetAzureFdw.Modify.RoundTrip
import ParquetAzureFdw.Modify.Session
import ParquetAzureFdw.Modify.Transaction
import ParquetAzureFdw.Modify.VersionLog
import ParquetAzureFdw.Options.Filename
import ParquetAzureFdw.Options.Server
import ParquetAzureFdw.Partition.Datums
import ParquetAzureFdw.Partition.FarDates
import ParquetAzureFdw.Partition.Grammar
import ParquetAzureFdw.Pushdown.Collation
import ParquetAzureFdw.Pushdown.Like
import ParquetAzureFdw.Redact.Exact
import ParquetAzureFdw.Scan.Dsm
import ParquetAzureFdw.Scan.Gather
import ParquetAzureFdw.Scan.OwnInserts
import ParquetAzureFdw.Scan.PushdownSelect
import ParquetAzureFdw.Scan.SortedScan
