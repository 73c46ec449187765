import TaskProf.Lib.AccMap
import TaskProf.Analysis.Attribution
import TaskProf.Analysis.Order
import TaskProf.Analysis.RegionReport
import TaskProf.Collection.Balance
import TaskProf.Collection.Cycles
import TaskProf.Collection.ForkJoin
import TaskProf.Collection.Rows
import TaskProf.Collection.ThreadIds
import TaskProf.Collection.Traced
import TaskProf.Exchange.CallSites
import TaskProf.Exchange.Cost
import TaskProf.Exchange.RegionBound
import TaskProf.Exchange.RegionInfo
import TaskProf.Exchange.SiteRows
import TaskProf.Tbb.AutoPartition
import TaskProf.Tbb.Keys
