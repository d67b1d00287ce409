import NwScript.Bytecode.Assembler
import NwScript.Proofs.AnalysisOutcome
import NwScript.Proofs.AssembledCode
import NwScript.Proofs.AssignmentRecovery
import NwScript.Proofs.BottomlessFrames
import NwScript.Proofs.CallFrames
import NwScript.Proofs.CallSiteEstimates
import NwScript.Proofs.CallViews
import NwScript.Proofs.CleanedStatements
import NwScript.Proofs.CleanupTwice
import NwScript.Proofs.CoherentPrototypes
import NwScript.Proofs.Condensation
import NwScript.Proofs.ControlFlow
import NwScript.Proofs.ConvergingCalls
import NwScript.Proofs.CountedSlots
import NwScript.Proofs.DeclaredHeights
import NwScript.Proofs.DeclaredWholes
import NwScript.Proofs.DepthFirst
import NwScript.Proofs.EdgeLists
import NwScript.Proofs.ExplorationCap
import NwScript.Proofs.ExplorationOrder
import NwScript.Proofs.FaithfulCopies
import NwScript.Proofs.FoldedValues
import NwScript.Proofs.GlobalNames
import NwScript.Proofs.GlobalWalks
import NwScript.Proofs.HiddenTypes
import NwScript.Proofs.JumpResolution
import NwScript.Proofs.KeptEvaluation
import NwScript.Proofs.LiveEdges
import NwScript.Proofs.NestedScopes
import NwScript.Proofs.OmittedArguments
import NwScript.Proofs.ParameterRanges
import NwScript.Proofs.PrototypeChanges
import NwScript.Proofs.ReadingBack
import NwScript.Proofs.RecoveredCalls
import NwScript.Proofs.Recursion
import NwScript.Proofs.RefinementRounds
import NwScript.Proofs.ReservedNames
import NwScript.Proofs.ResultWidths
import NwScript.Proofs.SettledPrototypes
import NwScript.Proofs.SharedAggregates
import NwScript.Proofs.StrictRuns
import NwScript.Proofs.StringLiterals
import NwScript.Proofs.StructuredRoundTrip
import NwScript.Proofs.SwitchCases
import NwScript.Proofs.SwitchScan
import NwScript.Proofs.TopCopies
import NwScript.Proofs.VariableForest
import NwScript.SourceProgram
