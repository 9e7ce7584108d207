import SpiderSearch.Runs
import SpiderSearch.CppTypes
import SpiderSearch.DoWork
import SpiderSearch.Layers
import SpiderSearch.Descent
import SpiderSearch.CrawlLoop
import SpiderSearch.Sequential
import SpiderSearch.Termination
import SpiderSearch.WakeUp
import SpiderSearch.WorkerPool
import SpiderSearch.PoolLock
import SpiderSearch.PoolRefines
import SpiderSearch.PoolDrain
import SpiderSearch.BreadthFirst
import SpiderSearch.Tables
import SpiderSearch.SqlText
import SpiderSearch.StoredRows
import SpiderSearch.Triples
import SpiderSearch.DbSession
import SpiderSearch.DbClient
import SpiderSearch.AddLink
import SpiderSearch.IndexAtomic
import SpiderSearch.IndexTruth
import SpiderSearch.LoneWorker
import SpiderSearch.WebCrawl
import SpiderSearch.LinkDepth
import SpiderSearch.Coverage
import SpiderSearch.Regex
import SpiderSearch.Links
import SpiderSearch.UrlKey
import SpiderSearch.Keyword
import SpiderSearch.Words
import SpiderSearch.Vocabulary
import SpiderSearch.Parse
import SpiderSearch.VisitOnce
import SpiderSearch.Deepening
import SpiderSearch.FindUrl
import SpiderSearch.Multimap
import SpiderSearch.HttpServer
import SpiderSearch.SearchTotals
import SpiderSearch.SearchResults
import SpiderSearch.Arrangement
import SpiderSearch.Phrase
import SpiderSearch.HtmlText
import SpiderSearch.HtmlMarkup
import SpiderSearch.ResultMarkup
import SpiderSearch.Serving
import SpiderSearch.IniFile
import SpiderSearch.LetterRuns
import SpiderSearch.WordCounts
import SpiderSearch.TagText
import SpiderSearch.CursorBounds
import SpiderSearch.Hrefs
import SpiderSearch.UrlGroups
import SpiderSearch.LinkInverse
import SpiderSearch.RelativeLinks
import SpiderSearch.HostSplit
import SpiderSearch.UrlCut
import SpiderSearch.Queries
import SpiderSearch.Redirects
import SpiderSearch.RequestText
import SpiderSearch.LastWriter
import SpiderSearch.IniView
import SpiderSearch.IniLayout
import SpiderSearch.IniComments
import SpiderSearch.IniSettings
import SpiderSearch.KeywordValue
import SpiderSearch.ConnectionString
import SpiderSearch.Startup
import SpiderSearch.SearchIndex
import SpiderSearch.SearchEngine
import SpiderSearch.Statements
import SpiderSearch.CrawledSearch
import SpiderSearch.AppendOnly
import SpiderSearch.LiveSearch
import SpiderSearch.LinkBudget
import SpiderSearch.Distance
import SpiderSearch.Outcome
import SpiderSearch.LinkClosure
import SpiderSearch.SubLinks
import SpiderSearch.Crashes
import SpiderSearch.Confinement
import SpiderSearch.Delivery
import SpiderSearch.Sessions
import SpiderSearch.Deployment
import SpiderSearch.Recrawl
import SpiderSearch.StableResults
import SpiderSearch.Damage
import SpiderSearch.Requests
