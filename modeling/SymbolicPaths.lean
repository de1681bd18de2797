import SymbolicPaths.ArtifactFile
import SymbolicPaths.Batch
import SymbolicPaths.CommandLine.Argument
import SymbolicPaths.CommandLine.Command
import SymbolicPaths.CommandLine.Run
import SymbolicPaths.Dump
import SymbolicPaths.Engine
import SymbolicPaths.Evaluation
import SymbolicPaths.Exclusion
import SymbolicPaths.Exploration
import SymbolicPaths.Extraction
import SymbolicPaths.Files.Fault
import SymbolicPaths.Files.Script
import SymbolicPaths.Files.Tree
import SymbolicPaths.Graph
import SymbolicPaths.Gzip.Crc
import SymbolicPaths.Gzip.Inflate
import SymbolicPaths.Gzip.Stored
import SymbolicPaths.Gzip.Stream
import SymbolicPaths.Journal
import SymbolicPaths.Json.Artifact
import SymbolicPaths.Json.Layout
import SymbolicPaths.Json.Options
import SymbolicPaths.Json.Reader
import SymbolicPaths.Json.Text
import SymbolicPaths.Json.Token
import SymbolicPaths.Json.Writer
import SymbolicPaths.Loading
import SymbolicPaths.LogFilter
import SymbolicPaths.LoopBound
import SymbolicPaths.Machine.Flow
import SymbolicPaths.Machine.Word
import SymbolicPaths.Machine.X86
import SymbolicPaths.Main
import SymbolicPaths.Object.Archive
import SymbolicPaths.Object.Coff
import SymbolicPaths.Object.Elf
import SymbolicPaths.Object.Format
import SymbolicPaths.Object.Image
import SymbolicPaths.Object.MachO
import SymbolicPaths.Object.Pe
import SymbolicPaths.Object.Symbol
import SymbolicPaths.Options
import SymbolicPaths.OptionsFile
import SymbolicPaths.Path
import SymbolicPaths.Project
import SymbolicPaths.Proofs.DepthFirstSearch
import SymbolicPaths.Proofs.EvaluationLaws
import SymbolicPaths.Proofs.ExplorerLaws
import SymbolicPaths.Proofs.FullExploration
import SymbolicPaths.Proofs.GraphLaws
import SymbolicPaths.Proofs.Outcomes
import SymbolicPaths.Proofs.Rounds
import SymbolicPaths.Proofs.Spinning
import SymbolicPaths.Proofs.Termination
import SymbolicPaths.Proofs.Tracelets
import SymbolicPaths.Proofs.Walker
import SymbolicPaths.Records
import SymbolicPaths.Recovery
import SymbolicPaths.Simulation
import SymbolicPaths.Text.Blank
import SymbolicPaths.Text.CaseTable
import SymbolicPaths.Text.Decimal
import SymbolicPaths.Text.Hex
import SymbolicPaths.Text.Lossy
import SymbolicPaths.Text.Lowercase
import SymbolicPaths.Value
import SymbolicPaths.Yaml.Cursor
import SymbolicPaths.Yaml.Node
import SymbolicPaths.Yaml.Options
import SymbolicPaths.Yaml.Scalar
import SymbolicPaths.Yaml.Token
import SymbolicPaths.Proofs.TraceletWalks
import SymbolicPaths.Proofs.BoundMonotonicity
import SymbolicPaths.Proofs.DumpLaws
import SymbolicPaths.Proofs.FunctionFilter
import SymbolicPaths.Proofs.LenientDump
import SymbolicPaths.Proofs.Escalation
import SymbolicPaths.Proofs.BlockSplitting
import SymbolicPaths.Proofs.BlockGraph
import SymbolicPaths.Proofs.RecoveryLaws
import SymbolicPaths.Proofs.RecoveredDump
import SymbolicPaths.Proofs.RecoveredPaths
import SymbolicPaths.Proofs.TextBytes
import SymbolicPaths.Proofs.JsonTokens
import SymbolicPaths.Proofs.JsonLayouts
import SymbolicPaths.Proofs.JsonReading
import SymbolicPaths.Proofs.ArtifactJson
import SymbolicPaths.Proofs.PathNames
import SymbolicPaths.Proofs.FileTreeLaws
import SymbolicPaths.Proofs.ScriptRuns
import SymbolicPaths.Proofs.ScriptTeams
import SymbolicPaths.Proofs.ArtifactWriting
import SymbolicPaths.Proofs.ArtifactRoundTrip
import SymbolicPaths.Proofs.BatchLaws
import SymbolicPaths.Proofs.TreeLocality
import SymbolicPaths.Proofs.Scheduling
import SymbolicPaths.Proofs.ExclusionIndependence
import SymbolicPaths.Proofs.NaturalLoops
import SymbolicPaths.Proofs.SpinCounting
import SymbolicPaths.Proofs.StashDiscipline
import SymbolicPaths.Proofs.LongTracelets
import SymbolicPaths.Proofs.TraceletCoverage
import SymbolicPaths.Proofs.BlockPartition
import SymbolicPaths.Proofs.ValueText
import SymbolicPaths.Proofs.ValueWidth
import SymbolicPaths.Proofs.EvaluatedPaths
import SymbolicPaths.Proofs.Resynchronization
import SymbolicPaths.Proofs.MarkerAttribution
import SymbolicPaths.Proofs.BlockRecords
import SymbolicPaths.Proofs.OptionsRoundTrip
import SymbolicPaths.Proofs.GraphHistory
import SymbolicPaths.Proofs.DistinctOutputs
import SymbolicPaths.Proofs.KeyedMaps
import SymbolicPaths.Proofs.SectionLaws
import SymbolicPaths.Proofs.CodePlacement
import SymbolicPaths.Proofs.EntryPlacement
import SymbolicPaths.Proofs.LowercaseLaws
import SymbolicPaths.Proofs.ExclusionUnions
import SymbolicPaths.Proofs.LinkedTrees
import SymbolicPaths.Proofs.LinkedWriting
import SymbolicPaths.Proofs.UnlinkedTrees
import SymbolicPaths.Proofs.Sessions
