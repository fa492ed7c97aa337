import Arcueid.Lib.TriangularProbing
import Arcueid.Table
import Arcueid.TableProbes
import Arcueid.TableTermination
import Arcueid.Hash
import Arcueid.TableRuns
import Arcueid.TableMap
import Arcueid.Value
import Arcueid.Machine
import Arcueid.EnvHeap
import Arcueid.ContHeap
import Arcueid.ThreadBuilt
import Arcueid.ContSharing
import Arcueid.StackCheck
import Arcueid.Lib.Tricolour
import Arcueid.Collector
import Arcueid.CollectorMarks
import Arcueid.CollectorInvariant
import Arcueid.CollectorSafety
import Arcueid.Lib.StackCode
import Arcueid.Lib.Outcome
import Arcueid.Codegen
import Arcueid.Bytecode
import Arcueid.Compiler
import Arcueid.CompileTotal
import Arcueid.RenamingCompiled
import Arcueid.TailCalls
import Arcueid.CompilerHeights
import Arcueid.Lib.Winding
import Arcueid.DynamicWind
import Arcueid.OnErr
import Arcueid.OnErrRefinement
import Arcueid.OnErrRuns
import Arcueid.ThreadQueue
import Arcueid.Threads
import Arcueid.ThreadsInvariant
import Arcueid.ChannelOrder
import Arcueid.ChannelWakeups
import Arcueid.JoinThread
import Arcueid.ByteStream
import Arcueid.StringWrite
import Arcueid.ConsRoundTrip
import Arcueid.InlineAgree
import Arcueid.Atomic
import Arcueid.Lib.Bounded
import Arcueid.Zread
import Arcueid.ZreadLoops
import Arcueid.ZreadTotal
import Arcueid.AccMiscount
import Arcueid.Objects
import Arcueid.Iso
import Arcueid.Xhash
import Arcueid.TableStored
import Arcueid.SimpleKeys
import Arcueid.Lib.Settling
import Arcueid.VisitTables
import Arcueid.IsoPairs
import Arcueid.IsoEnds
import Arcueid.IsoConses
import Arcueid.Pairwise
import Arcueid.IsoVectors
import Arcueid.Lib.PartialInverse
import Arcueid.BucketHeap
import Arcueid.BackPointers
import Arcueid.BucketRuns
import Arcueid.PrintGraph
import Arcueid.PrintEnds
import Arcueid.PrintLoops
import Arcueid.IsoTables
import Arcueid.XhashTrace
import Arcueid.NumberObjects
import Arcueid.ExactNumbers
import Arcueid.ExactQuotients
import Arcueid.ExactPowers
import Arcueid.Lib.NearestEven
import Arcueid.IntCoercion
import Arcueid.AddFrame
import Arcueid.Lib.Positional
import Arcueid.DigitStrings
import Arcueid.FlonumTokens
import Arcueid.IntegerTokens
import Arcueid.ReadTotal
import Arcueid.Atstrings
import Arcueid.Ssexpand
import Arcueid.SsexpandTotal
import Arcueid.Lib.LinkedList
import Arcueid.Dispatch
import Arcueid.RunQueue
import Arcueid.SleepTimes
import Arcueid.Bibop
import Arcueid.BibopLists
import Arcueid.BibopRebuild
import Arcueid.Sref
import Arcueid.SrefSpec
import Arcueid.Lib.Narrowing
import Arcueid.Sio
import Arcueid.SioTape
import Arcueid.TokenBoundaries
import Arcueid.Truncation
import Arcueid.TruncatedRead
import Arcueid.TruncatedSource
import Arcueid.TableNormal
import Arcueid.MixedTables
import Arcueid.Lib.ConsStore
import Arcueid.TableIteration
import Arcueid.TableConversions
import Arcueid.Quasiquote
import Arcueid.QuasiquoteFills
import Arcueid.LineReader
import Arcueid.LineErasure
import Arcueid.LineTracking
import Arcueid.LineNumbers
import Arcueid.LineRecords
import Arcueid.LineCalls
import Arcueid.AtstringText
import Arcueid.Pushback
import Arcueid.FrameOverflow
import Arcueid.TailFrames
import Arcueid.BreakThread
import Arcueid.Load
import Arcueid.LoadRuns
import Arcueid.Cmarks
import Arcueid.CmarkStacks
import Arcueid.CmarkRuns
import Arcueid.Iowait
import Arcueid.StackRoots
import Arcueid.NekoEnv
import Arcueid.NekoFrames
import Arcueid.NekoSymbols
import Arcueid.Lib.SlotTable
import Arcueid.NekoLongMap
import Arcueid.NekoFixnums
import Arcueid.Lib.ConsList
import Arcueid.Lib.StableSort
import Arcueid.MergeSort
import Arcueid.ArcSsexpand
import Arcueid.Queue
import Arcueid.CoreEval
import Arcueid.CoreCode
import Arcueid.CoreFrames
import Arcueid.CoreCalls
import Arcueid.CoreRuns
import Arcueid.CoreSessions
