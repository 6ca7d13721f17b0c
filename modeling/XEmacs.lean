import XEmacs.Lib.Transition
import XEmacs.Lib.Gap
import XEmacs.Text.MarkerAdjust
import XEmacs.Text.GapArray
import XEmacs.Text.GapArrayRefinement
import XEmacs.Text.Itext
import XEmacs.Text.Buffer
import XEmacs.Text.BufferGap
import XEmacs.Text.EditedText
import XEmacs.Text.BufferRefinement
import XEmacs.Text.BufferRuns
import XEmacs.Async.Scheduler
import XEmacs.Lib.HeapList
import XEmacs.Async.Effects
import XEmacs.Async.Steps
import XEmacs.Async.Mailbox
import XEmacs.Async.Join
import XEmacs.Async.ErrorSlot
import XEmacs.Async.ExitReport
import XEmacs.Async.Await
import XEmacs.Async.Lists
import XEmacs.Async.Walk
import XEmacs.Lib.Intervals
import XEmacs.Table.RangeTable
import XEmacs.Table.RangeTableLookup
import XEmacs.Table.RangeTableCanonical
import XEmacs.Lib.Probing
import XEmacs.Table.HashTable
import XEmacs.Table.HashTableProbing
import XEmacs.Table.HashTableSize
import XEmacs.Table.HashTableMap
import XEmacs.Lisp.Hash
import XEmacs.Lisp.EqualHash
import XEmacs.Table.Obarray
import XEmacs.Table.ObarrayNames
import XEmacs.Lib.Marking
import XEmacs.Table.WeakTables
import XEmacs.Table.WeakTablesSurvival
import XEmacs.Text.Undo
import XEmacs.Text.UndoRestores
import XEmacs.Text.LineNumber
import XEmacs.Text.LineNumberCounts
import XEmacs.Text.LineNumberRuns
import XEmacs.Coding.Base64
import XEmacs.Coding.Base64RoundTrip
import XEmacs.Extent.Family
import XEmacs.Extent.FamilyRuns
import XEmacs.Table.CharTable
import XEmacs.Table.CharTableLookup
import XEmacs.Coding.CharsetTables
import XEmacs.Lib.ReverseIndex
import XEmacs.Coding.CharsetConsistency
import XEmacs.Coding.Unicode
import XEmacs.Coding.UnicodeChunks
import XEmacs.Coding.UnicodeCharacters
import XEmacs.Coding.Utf8Sequences
import XEmacs.Coding.UnicodeTransparency
import XEmacs.Coding.UnicodeRoundTrip
import XEmacs.Text.BytePositions
import XEmacs.Text.BytePositionsExact
import XEmacs.Text.BytePositionRuns
import XEmacs.Extent.ExtentList
import XEmacs.Extent.ExtentOrder
import XEmacs.Extent.ExtentOps
import XEmacs.Extent.MapExtents
import XEmacs.Extent.MapSequence
import XEmacs.Extent.MapComplete
import XEmacs.Stream.Lstream
import XEmacs.Stream.LstreamExact
import XEmacs.Stream.WholeCharacters
import XEmacs.Symbol.BufferLocal
import XEmacs.Symbol.BufferLocalCache
import XEmacs.Symbol.BufferLocalTransparent
import XEmacs.Lib.Matched
import XEmacs.Sequence.Mismatch
import XEmacs.Sequence.MismatchLoops
import XEmacs.Sequence.MismatchExact
import XEmacs.Lib.ListBuilding
import XEmacs.Lib.StableMerge
import XEmacs.Sequence.Merge
import XEmacs.Sequence.MergeLists
import XEmacs.Sequence.MergeTortoise
import XEmacs.Sequence.MergeArrays
import XEmacs.Sequence.MergeStable
import XEmacs.Async.ConditionHandlers
import XEmacs.Async.ConditionHandlersSpliced
import XEmacs.Text.GapArrayClone
import XEmacs.Elpa.Plan
import XEmacs.Elpa.PlanRuns
import XEmacs.Elpa.PlanClosure
import XEmacs.Elpa.PlanOrder
import XEmacs.Coding.Multibyte
import XEmacs.Coding.MultibyteCharsets
import XEmacs.Coding.MultibyteTransparent
import XEmacs.Keymap.Keymap
import XEmacs.Keymap.InverseTable
import XEmacs.Keymap.KeymapInvariant
import XEmacs.Keymap.KeymapStore
import XEmacs.Keymap.KeymapCopy
import XEmacs.Keymap.KeymapRuns
import XEmacs.Keymap.KeyPaths
import XEmacs.Keymap.KeymapTrie
import XEmacs.Keymap.DefineKey
import XEmacs.Keymap.LookupKey
import XEmacs.Coding.Base64Padding
import XEmacs.Table.RangeTableRead
import XEmacs.Text.SplitString
import XEmacs.Text.StringPositions
import XEmacs.Text.StringPositionsExact
import XEmacs.Text.UndoTruncate
import XEmacs.Lib.ProbingGap
import XEmacs.Table.HashTableGap
import XEmacs.Table.HashTableIterator
import XEmacs.Table.HashTableWalk
import XEmacs.Text.LineBeginning
import XEmacs.Text.LineBeginningExact
import XEmacs.Extent.BufferExtents
import XEmacs.Extent.BufferExtentsGap
import XEmacs.Extent.MapInvariant
import XEmacs.Extent.BufferExtentsInsert
import XEmacs.Extent.BufferExtentsDelete
import XEmacs.Extent.MapDetach
import XEmacs.Extent.BufferExtentsRuns
import XEmacs.Extent.ExtentRun
import XEmacs.Lib.Walk
import XEmacs.Extent.DeletionRules
import XEmacs.Coding.UnicodeMark
import XEmacs.Coding.UnicodeMarkStart
import XEmacs.Coding.UnicodeTell
import XEmacs.Lib.Tortoise
import XEmacs.Lisp.Plist
import XEmacs.Lisp.PlistWalk
import XEmacs.Lisp.PlistEntries
import XEmacs.Lib.Firsts
import XEmacs.Lisp.PlistCanonical
import XEmacs.Lisp.PlistsDiffer
import XEmacs.Coding.CompiledTables
import XEmacs.Coding.CompiledTablesDecode
import XEmacs.Lib.Until
import XEmacs.Table.CharTableMap
import XEmacs.Table.CharTableMapExact
import XEmacs.Coding.CharsetRegistry
import XEmacs.Coding.PrivateCodepoints
import XEmacs.Coding.MappingTable
import XEmacs.Coding.MappingTableExact
import XEmacs.Coding.AsciiMappings
import XEmacs.Coding.AsciiShortcut
import XEmacs.Lib.RoundedDivision
import XEmacs.Lib.Words
import XEmacs.Number.LispNumber
import XEmacs.Number.RoundingFunctions
import XEmacs.Number.Shift
import XEmacs.Number.RoundingLaws
import XEmacs.Number.RoundingExact
import XEmacs.Number.Remainder
import XEmacs.Number.RemainderExact
import XEmacs.Number.StringToNumber
import XEmacs.Number.StringToNumberExact
import XEmacs.Number.DigitMaps
import XEmacs.Number.DigitMapsInverse
import XEmacs.Number.ParseInteger
import XEmacs.Number.ParseIntegerExact
import XEmacs.Sequence.Search
import XEmacs.Sequence.SearchExact
import XEmacs.Table.CharTableRead
import XEmacs.Table.CharTableReadExact
import XEmacs.Sequence.Position
import XEmacs.Sequence.PositionExact
import XEmacs.Sequence.Sublis
import XEmacs.Elpa.PlanEnds
import XEmacs.Coding.ConvertEol
import XEmacs.Coding.ShiftJis
import XEmacs.Format.Doprnt
import XEmacs.Format.StringFields
import XEmacs.Format.NumberToString
import XEmacs.Completion.TryCompletion
import XEmacs.Completion.LongestCompletion
import XEmacs.Table.CaseTable
import XEmacs.Completion.Completions
