import Libdap.Chunked.RoundTrip
import Libdap.Chunked.SlowFast
import Libdap.Chunked.Truncation
import Libdap.Dap2.CeExpr
import Libdap.Marshal.WriterThread
import Libdap.Foundation.Coding
import Libdap.Marshal.Xdr
import Libdap.Marshal.XDRStreamMarshaller
import Libdap.Marshal.XDRStreamUnMarshaller
import Libdap.Marshal.XdrRoundTrip
import Libdap.Marshal.XdrParts
import Libdap.Marshal.Crc32
import Libdap.Marshal.D4StreamMarshaller
import Libdap.Marshal.D4Parts
import Libdap.Marshal.D4StreamUnMarshaller
import Libdap.Marshal.D4RoundTrip
import Libdap.Dap4.Dataset
import Libdap.Dap4.Index
import Libdap.Dap4.Slices
import Libdap.Dap4.SliceSpec
import Libdap.Dap4.ValidSlices
import Libdap.Foundation.Crossing
import Libdap.Dap4.Maps
import Libdap.Dap4.Lookup
import Libdap.Dap4.LookupVar
import Libdap.Dap4.GroupCopy
import Libdap.Dap4.LookupInverse
import Libdap.Foundation.Copying
import Libdap.Dap4.CopiedTree
import Libdap.Dap4.SelfContained
import Libdap.Dap4.Flags
import Libdap.Dap4.Evaluator
import Libdap.Dap4.MarkedArrays
import Libdap.Dap4.ConstrainedDmr
import Libdap.Dap2.Vector
import Libdap.Dap2.VectorCapacity
import Libdap.Foundation.Run
import Libdap.Dap2.VectorRuns
import Libdap.Foundation.Locking
import Libdap.Http.CacheEntry
import Libdap.Http.CacheTable
import Libdap.Http.CacheIndex
import Libdap.Http.Cache
import Libdap.Http.Residents
import Libdap.Dap4.Filter
import Libdap.Foundation.Declared
import Libdap.Dap2.Variables
import Libdap.Dap2.DatasetRoundTrip
import Libdap.Dap4.Attributes
import Libdap.Dap4.DataResponse
import Libdap.Dap4.DataRoundTrip
import Libdap.Foundation.Lockstep
import Libdap.Dap2.Sequence
import Libdap.Dap2.SequenceWalk
import Libdap.Dap2.SequenceIntern
import Libdap.Dap2.SequenceReading
import Libdap.Dap2.SequenceRows
import Libdap.Dap2.SequenceRoundTrip
import Libdap.Dap2.SequenceWire
import Libdap.Dap2.SequenceEnds
import Libdap.Dap2.Tagging
import Libdap.Dap2.Selection
import Libdap.Dap2.Names
import Libdap.Dap2.DdsLookup
import Libdap.Dap4.BuildUsingDds
import Libdap.Dap2.AttrTable
import Libdap.Dap2.AttrTableInvariant
import Libdap.Dap2.AttrTableRuns
import Libdap.Dap2.DdsCopy
import Libdap.Dap4.Marks
import Libdap.Dap4.ConstrainedEnums
import Libdap.Dap4.FunctionResult
import Libdap.Foundation.Matched
import Libdap.Dap4.ToDap2
import Libdap.Dap4.ToDap2Exact
import Libdap.Dap2.Constraint
import Libdap.Dap2.ConstraintEffects
import Libdap.Dap2.ConstraintExact
import Libdap.Foundation.Splice
import Libdap.Dap2.VectorElements
import Libdap.Http.Lines
import Libdap.Http.Metadata
import Libdap.Http.Time
import Libdap.Http.Headers
import Libdap.Http.Sweeping
import Libdap.Http.GarbageCollection
import Libdap.Http.IndexFields
import Libdap.Http.IndexRoundTrip
import Libdap.Foundation.Machine
import Libdap.Marshal.ReaderProgress
import Libdap.Dap2.SequenceTermination
import Libdap.Dap2.Parts
import Libdap.Dap4.Assignment
import Libdap.Dap4.AssignedClasses
import Libdap.Foundation.Transducer
import Libdap.Dap2.DdsText
import Libdap.Dap2.DdsScan
import Libdap.Dap2.DdsParser
import Libdap.Dap2.DdsReceived
import Libdap.Dap2.DdsNumbers
import Libdap.Dap2.DdsRoundTrip
import Libdap.Foundation.Loop
import Libdap.Foundation.Rewriting
import Libdap.Escaping.Xml
import Libdap.Escaping.Quotes
import Libdap.Escaping.Www
import Libdap.Escaping.Attributes
import Libdap.Dap4.AttributeSearch
import Libdap.Dap2.SequenceSubscripts
import Libdap.Dap4.NumberTexts
import Libdap.Dap4.NumberChecks
import Libdap.Dap4.RequestSize
import Libdap.Dap2.CompoundElements
import Libdap.Foundation.Crc
import Libdap.Marshal.ChecksumLaw
import Libdap.Http.Books
import Libdap.Http.LockAccounting
import Libdap.Foundation.Threads
import Libdap.Http.Deadlock
import Libdap.Foundation.Wildcards
import Libdap.Util.Glob
import Libdap.Util.GlobPatterns
import Libdap.Dap2.GridInvariant
import Libdap.Dap2.RowReset
import Libdap.Dap2.GridProjection
import Libdap.Foundation.LineReads
import Libdap.Http.Mime
import Libdap.Foundation.KeyedSet
import Libdap.Http.HeaderMerging
import Libdap.Dap2.Keywords
import Libdap.Foundation.Spans
import Libdap.Http.DateTexts
import Libdap.Dap2.ErrorRoundTrip
import Libdap.Dap2.AttrTableNames
import Libdap.Dap4.AttributeConversion
import Libdap.Http.DiskSpace
import Libdap.Http.SizeAccounting
import Libdap.Dap2.PrintArray
import Libdap.Dap4.DecimalTexts
import Libdap.Util.LongToString
import Libdap.Dap4.ArrayConstants
import Libdap.Dap4.FilterCopies
import Libdap.Dap4.FilterIsolation
import Libdap.Dap4.FilterReads
import Libdap.Dap4.SequenceTransfer
import Libdap.Foundation.Mealy
import Libdap.Dap4.SequenceLeftovers
import Libdap.Dap4.DmrStore
import Libdap.Dap4.DmrParser
import Libdap.Dap4.DmrErrors
import Libdap.Dap4.DmrDescent
import Libdap.Dap4.DmrInterned
