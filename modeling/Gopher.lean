import Gopher.LittleEndian
import Gopher.StepRuns
import Gopher.ByteStream
import Gopher.PrefixFraming
import Gopher.MsgSerializer
import Gopher.ConnReader
import Gopher.GoChannel
import Gopher.ConnSystem
import Gopher.ConnPanic
import Gopher.ConnDelivery
import Gopher.WorkerPool
import Gopher.ConnRegistry
import Gopher.Shutdown
import Gopher.KeyedTable
import Gopher.UserTable
import Gopher.ExpiringStore
import Gopher.Sessions
import Gopher.SessionSafety
import Gopher.SessionIsolation
import Gopher.FileStreams
import Gopher.FileTransfer
import Gopher.FixedArray
import Gopher.ChatServer
import Gopher.Epoll
import Gopher.EpollServer
import Gopher.AsyncProducer
import Gopher.ListQueries
import Gopher.SqlStatements
import Gopher.Articles
import Gopher.Profiles
import Gopher.ThreadSafeQueue
import Gopher.SortedBlocks
import Gopher.MapReduce
import Gopher.MaximalRuns
import Gopher.WordCount
import Gopher.LoginEffects
import Gopher.Pagination
import Gopher.IntervalCover
import Gopher.MincostTickets
import Gopher.TakeCharacters
import Gopher.MinimumDifference
import Gopher.Seats
import Gopher.Bisection
import Gopher.MinSpeed
import Gopher.TwoPointers
import Gopher.MaxArea
import Gopher.OrderedPairs
import Gopher.SubsequenceCount
import Gopher.Loops
import Gopher.TicketQueue
import Gopher.PairCounts
import Gopher.EdgeScore
import Gopher.LongestConsecutive
import Gopher.TwoSum
import Gopher.MoveZeroes
import Gopher.DivisiblePairs
import Gopher.MapOrders
import Gopher.DestCity
import Gopher.Grouping
import Gopher.RuneStrings
import Gopher.GroupAnagrams
import Gopher.SumTasks
import Gopher.JwtLifetime
import Gopher.BufferedWriter
import Gopher.FileCopy
import Gopher.Tokens
import Gopher.HttpServer
import Gopher.Linearizability
import Gopher.DancingLinks
import Gopher.Bitsets
import Gopher.LinearizationSearch
import Gopher.LinkedEntries
import Gopher.CheckSingle
import Gopher.Histories
import Gopher.FairRuns
import Gopher.CheckParallel
import Gopher.CheckOperations
import Gopher.KvModel
import Gopher.Labrpc
import Gopher.LabrpcCalls
import Gopher.RaftConfig
import Gopher.RaftDurability
import Gopher.RaftLogs
import Gopher.RaftAgreement
import Gopher.Indexer
import Gopher.BoundedBuffer
