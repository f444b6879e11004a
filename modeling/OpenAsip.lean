import OpenAsip.BitStrings
import OpenAsip.Outcomes
import OpenAsip.MathTools
import OpenAsip.PrefixCodes
import OpenAsip.Containers
import OpenAsip.CalculateEncodings
import OpenAsip.BEMTester
import OpenAsip.SocketCodeTable
import OpenAsip.BitVectors
import OpenAsip.SocketCodeBits
import OpenAsip.SlotField
import OpenAsip.BitLayout
import OpenAsip.SlotFieldLayout
import OpenAsip.InstructionBitVector
import OpenAsip.FixBits
import OpenAsip.ReferencePositions
import OpenAsip.ProgramImage
import OpenAsip.PagedArrays
import OpenAsip.Memory
import OpenAsip.MemoryWords
import OpenAsip.MemoryHistory
import OpenAsip.Deliveries
import OpenAsip.OperationExecutors
import OpenAsip.SimpleExecutors
import OpenAsip.MultiLatencyExecutors
import OpenAsip.Executors
import OpenAsip.FUState
import OpenAsip.FUTiming
import OpenAsip.SimulationController
import OpenAsip.JumpTiming
import OpenAsip.UnitReset
import OpenAsip.SimulationCycles
import OpenAsip.SimulationReset
import OpenAsip.DirectAccessMemory
import OpenAsip.DirectAccessHistory
import OpenAsip.ByteReaders
import OpenAsip.TpefCodeSection
import OpenAsip.TpefRoundTrip
import OpenAsip.DataImage
import OpenAsip.DataImageLines
import OpenAsip.DataImagePlacement
import OpenAsip.DataImageGeneration
import OpenAsip.DictionaryCompression
import OpenAsip.Dictionaries
import OpenAsip.DictionaryRoundTrip
import OpenAsip.MoveSlotRoundTrip
import OpenAsip.InstructionTemplates
import OpenAsip.ITemplateBroker
import OpenAsip.ITemplateFits
import OpenAsip.ITemplateRecords
import OpenAsip.ITemplateSteps
import OpenAsip.ITemplateRemoval
import OpenAsip.ITemplatePlaces
import OpenAsip.ITemplateWrites
import OpenAsip.ITemplateUnassign
import OpenAsip.ITemplateRuns
import OpenAsip.BitMatrix
import OpenAsip.Reservations
import OpenAsip.ConflictDetectors
import OpenAsip.ConflictTables
import OpenAsip.ConflictSimulations
import OpenAsip.FUFiniteStateAutomaton
import OpenAsip.FSAStates
import OpenAsip.FSATransitions
import OpenAsip.FSABuild
import OpenAsip.ConflictAgreement
import OpenAsip.RiscvFormats
import OpenAsip.RiscvNumbering
import OpenAsip.RiscvEncodings
import OpenAsip.ReferenceFixing
import OpenAsip.LongImmediates
import OpenAsip.MinimalEncodings
import OpenAsip.LImmDstRegisterFields
import OpenAsip.WhileLoops
import OpenAsip.BinaryStreams
import OpenAsip.TpefSectionReaders
import OpenAsip.TpefTruncation
import OpenAsip.RelativePositions
import OpenAsip.FSACompleteness
import OpenAsip.ResourceVectors
import OpenAsip.BindingStrings
import OpenAsip.ResourceVectorDetectors
import OpenAsip.ResourceVectorAgreement
import OpenAsip.NeedsConflictDetection
import OpenAsip.CountedTries
import OpenAsip.BitTries
import OpenAsip.BitTrieRuns
import OpenAsip.LevelOrder
import OpenAsip.UnusedPrefixes
import OpenAsip.BinaryFormats
import OpenAsip.HalfFloatWords
import OpenAsip.SimValues
import OpenAsip.SimValueRuns
import OpenAsip.TextStreams
import OpenAsip.Conversions
import OpenAsip.ConversionLiterals
import OpenAsip.DigitStrings
import OpenAsip.HexValues
import OpenAsip.HexValueStores
import OpenAsip.AssignmentQueues
import OpenAsip.BitMatrixRuns
import OpenAsip.MemoryRanges
import OpenAsip.IUResources
import OpenAsip.ImageRows
import OpenAsip.ImageWriters
import OpenAsip.ImageWriterRows
import OpenAsip.ImageWriterFiles
import OpenAsip.UseRanges
import OpenAsip.ExecutionPipelines
import OpenAsip.ExecutionPipelineSteps
import OpenAsip.ExecutionPipelineCalls
import OpenAsip.ExecutionPipelineRuns
import OpenAsip.JoinedTexts
import OpenAsip.FunctionUnits
import OpenAsip.FunctionUnitTexts
import OpenAsip.FunctionUnitBindings
import OpenAsip.FunctionUnitVectors
import OpenAsip.FunctionUnitAgreement
import OpenAsip.FunctionUnitEquality
import OpenAsip.FunctionUnitCopies
import OpenAsip.FunctionUnitRelation
import OpenAsip.BrokerDirectors
import OpenAsip.BrokerDirectorBounds
import OpenAsip.BrokerDirectorRuns
import OpenAsip.BigEndian
import OpenAsip.ImmediateElements
import OpenAsip.ImmediateElementValues
import OpenAsip.Blocks
import OpenAsip.DataSections
import OpenAsip.DataSectionWrites
import OpenAsip.DataSectionLoops
import OpenAsip.DataSectionValues
import OpenAsip.DataSectionRoundTrips
import OpenAsip.StringSections
import OpenAsip.StringSectionRuns
import OpenAsip.BinaryStreamWrites
import OpenAsip.BinaryStreamRoundTrips
import OpenAsip.Tiles
import OpenAsip.Programs
import OpenAsip.ProgramAddresses
import OpenAsip.ProgramRuns
import OpenAsip.ProgramCalls
import OpenAsip.DependenceCycles
import OpenAsip.DependenceLatencies
import OpenAsip.DependenceAgreement
import OpenAsip.DependenceSchedules
import OpenAsip.PowersOfTwo
import OpenAsip.InstructionReferences
import OpenAsip.InstructionReferenceSteps
import OpenAsip.InstructionReferenceCalls
import OpenAsip.InstructionReferenceRuns
import OpenAsip.AssignmentPlans
import OpenAsip.FailedAssignments
import OpenAsip.AlignedBlocks
import OpenAsip.MemoryAliasAnalyzers
import OpenAsip.MemoryAliasSoundness
import OpenAsip.MemoryAddressTraces
import OpenAsip.MemoryAliasVerdicts
import OpenAsip.ViewTrees
import OpenAsip.SwapRemoval
import OpenAsip.BoostGraphs
import OpenAsip.BoostGraphEdges
import OpenAsip.BoostGraphChanges
import OpenAsip.BoostGraphMoves
import OpenAsip.BoostGraphSwaps
import OpenAsip.SubGraphConstruction
import OpenAsip.SubGraphs
import OpenAsip.SubGraphViews
import OpenAsip.SubGraphUpdates
import OpenAsip.SubGraphVisits
import OpenAsip.SubGraphSimulation
import OpenAsip.SubGraphRuns
import OpenAsip.SubGraphAnswers
import OpenAsip.GraphSearch
import OpenAsip.PathLengths
import OpenAsip.PathGraphs
import OpenAsip.SinkDistances
import OpenAsip.SinkDistanceGrowth
import OpenAsip.SinkDistanceChanges
import OpenAsip.SinkDistanceStarts
import OpenAsip.PathGraphUpdates
import OpenAsip.PathGraphRemovals
import OpenAsip.PathQueries
import OpenAsip.PathGraphRuns
import OpenAsip.PathWeights
import OpenAsip.PathWeightRuns
import OpenAsip.PathLengthEnds
import OpenAsip.FirstPathLengths
import OpenAsip.PathGraphAnswers
import OpenAsip.SimulationCommands
import OpenAsip.SimulationCommandRuns
import OpenAsip.BreakpointRuns
import OpenAsip.SimulationSessions
import OpenAsip.SubGraphRestores
import OpenAsip.FUResults
import OpenAsip.AssignmentSearches
import OpenAsip.PSocketResources
import OpenAsip.ExecutionPipelineResources
import OpenAsip.ExecutionPipelineResourceRuns
