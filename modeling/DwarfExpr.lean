import DwarfExpr.Lib.AddressRange
import DwarfExpr.Lib.ByteMemory
import DwarfExpr.Lib.CellHeap
import DwarfExpr.Lib.CyclicScan
import DwarfExpr.Lib.FirstMatch
import DwarfExpr.Lib.Fuel
import DwarfExpr.Lib.InputStream
import DwarfExpr.Lib.Layout
import DwarfExpr.Lib.LittleEndian
import DwarfExpr.Lib.LossyMap
import DwarfExpr.Lib.NestedCalls
import DwarfExpr.Lib.NumberText
import DwarfExpr.Lib.PrefixCode
import DwarfExpr.Lib.RawObject
import DwarfExpr.Lib.ReferenceChain
import DwarfExpr.Lib.RequestLog
import DwarfExpr.Lib.RunLength
import DwarfExpr.Lib.SiblingForest
import DwarfExpr.Lib.SignedWord
import DwarfExpr.Lib.Simulation
import DwarfExpr.Lib.StepMachine
import DwarfExpr.Lib.Utf16
import DwarfExpr.Lib.Words
import DwarfExpr.Searcher
import DwarfExpr.SearcherTree
import DwarfExpr.SearcherUnits
import DwarfExpr.SearcherSound
import DwarfExpr.SearcherRanges
import DwarfExpr.SearcherCycle
import DwarfExpr.SearcherBatch
import DwarfExpr.SearcherHandles
import DwarfExpr.Evaluate
import DwarfExpr.EvaluateRuns
import DwarfExpr.ExpressionEffects
import DwarfExpr.ExpressionJumps
import DwarfExpr.ExpressionBranches
import DwarfExpr.ExpressionStack
import DwarfExpr.ExpressionShuffles
import DwarfExpr.ExpressionLoops
import DwarfExpr.ExpressionConcat
import DwarfExpr.ExpressionPieces
import DwarfExpr.ExpressionRegisters
import DwarfExpr.ExpressionProviders
import DwarfExpr.ExpressionDivision
import DwarfExpr.ExpressionArithmetic
import DwarfExpr.ExpressionMemory
import DwarfExpr.ExpressionFraming
import DwarfExpr.ExpressionRelocation
import DwarfExpr.ExpressionDepths
import DwarfExpr.LocationLists
import DwarfExpr.NestedEvaluations
import DwarfExpr.LocationLoad
import DwarfExpr.LocationComplete
import DwarfExpr.Frames
import DwarfExpr.FramesCfa
import DwarfExpr.FramesEnds
import DwarfExpr.FrameBaseRecursion
import DwarfExpr.FramesSections
import DwarfExpr.Variables
import DwarfExpr.VariableValues
import DwarfExpr.TypeChains
import DwarfExpr.TypeNames
import DwarfExpr.DieReferences
import DwarfExpr.DieWalk
import DwarfExpr.DieWalkLevels
import DwarfExpr.UnloadedVariables
import DwarfExpr.FunctionVariables
import DwarfExpr.LineLookup
import DwarfExpr.ContextFile
import DwarfExpr.ContextFileRoundTrip
import DwarfExpr.ContextFileTruncated
import DwarfExpr.Dwarf2line
import DwarfExpr.ContextExtension
import DwarfExpr.StackVariables
import DwarfExpr.CommandLine
import DwarfExpr.Dwarf2lineMain
import DwarfExpr.Dwarf2lineRuns
import DwarfExpr.Minidump
import DwarfExpr.MinidumpContexts
import DwarfExpr.MinidumpListStream
import DwarfExpr.MinidumpOrder
import DwarfExpr.MinidumpRequests
import DwarfExpr.MinidumpTraces
import DwarfExpr.MinidumpStrings
import DwarfExpr.MemoryRegions
import DwarfExpr.MinidumpRoundTrip
import DwarfExpr.MinidumpMemory
import DwarfExpr.MinidumpHeap
import DwarfExpr.MinidumpLeaks
import DwarfExpr.MinidumpText
import DwarfExpr.StackDump
import DwarfExpr.RegisterDump
import DwarfExpr.ContextMigration
import DwarfExpr.TextSections
import DwarfExpr.TextRoundTrip
import DwarfExpr.MinidumpDump
import DwarfExpr.DumpConversion
