import FeatureAssembly.Assembly.Build
import FeatureAssembly.Assembly.Error
import FeatureAssembly.Assembly.Run
import FeatureAssembly.Assembly.Step
import FeatureAssembly.Classifiers
import FeatureAssembly.Command.Duration
import FeatureAssembly.Command.Invocation
import FeatureAssembly.Command.Program
import FeatureAssembly.Command.Report
import FeatureAssembly.Command.Summary
import FeatureAssembly.Config
import FeatureAssembly.Diagnostic
import FeatureAssembly.Digest
import FeatureAssembly.Feature
import FeatureAssembly.Feature.Codec
import FeatureAssembly.Files.DefaultPaths
import FeatureAssembly.Files.FeatureDirectory
import FeatureAssembly.Files.FileError
import FeatureAssembly.Files.FileSystem
import FeatureAssembly.Files.Path
import FeatureAssembly.Files.Repository
import FeatureAssembly.Identity
import FeatureAssembly.Json.Binary64
import FeatureAssembly.Json.Codec
import FeatureAssembly.Json.Fault
import FeatureAssembly.Json.Printer
import FeatureAssembly.Json.Scan
import FeatureAssembly.Json.Shortest
import FeatureAssembly.Json.Value
import FeatureAssembly.Loader
import FeatureAssembly.Main
import FeatureAssembly.Manifest
import FeatureAssembly.Merge.ByPrototype
import FeatureAssembly.Merge.Inquiry
import FeatureAssembly.Merge.Overlay
import FeatureAssembly.Proofs.Acceptance
import FeatureAssembly.Proofs.AddedDependencies
import FeatureAssembly.Proofs.Aggregates
import FeatureAssembly.Proofs.Answers
import FeatureAssembly.Proofs.Asked
import FeatureAssembly.Proofs.AssembledStore
import FeatureAssembly.Proofs.BuildOrder
import FeatureAssembly.Proofs.ByteOrder
import FeatureAssembly.Proofs.Changes
import FeatureAssembly.Proofs.Classifiers
import FeatureAssembly.Proofs.Completion
import FeatureAssembly.Proofs.Components
import FeatureAssembly.Proofs.Conflicts
import FeatureAssembly.Proofs.Confluence
import FeatureAssembly.Proofs.CoordinateGrammar
import FeatureAssembly.Proofs.Coordinates
import FeatureAssembly.Proofs.CycleDetection
import FeatureAssembly.Proofs.DeclaredDependencies
import FeatureAssembly.Proofs.Depth
import FeatureAssembly.Proofs.Diagnostics
import FeatureAssembly.Proofs.Documents
import FeatureAssembly.Proofs.Extension
import FeatureAssembly.Proofs.ExternalArtifacts
import FeatureAssembly.Proofs.FeatureFiles
import FeatureAssembly.Proofs.FeatureOutput
import FeatureAssembly.Proofs.FeatureScan
import FeatureAssembly.Proofs.Formation
import FeatureAssembly.Proofs.GreedyOrder
import FeatureAssembly.Proofs.Identities
import FeatureAssembly.Proofs.InFlight
import FeatureAssembly.Proofs.Inheritance
import FeatureAssembly.Proofs.Invariant
import FeatureAssembly.Proofs.Isolation
import FeatureAssembly.Proofs.JoinedPaths
import FeatureAssembly.Proofs.Json.Codecs
import FeatureAssembly.Proofs.Json.Lexemes
import FeatureAssembly.Proofs.Json.Reading
import FeatureAssembly.Proofs.Json.Records
import FeatureAssembly.Proofs.Json.SortedForm
import FeatureAssembly.Proofs.Json.Spelling
import FeatureAssembly.Proofs.Layers
import FeatureAssembly.Proofs.Ledger
import FeatureAssembly.Proofs.ModuleCycles
import FeatureAssembly.Proofs.Moves
import FeatureAssembly.Proofs.Nesting
import FeatureAssembly.Proofs.NotFound
import FeatureAssembly.Proofs.OrderedArtifacts
import FeatureAssembly.Proofs.OutsideRequests
import FeatureAssembly.Proofs.Overlay
import FeatureAssembly.Proofs.Ownership
import FeatureAssembly.Proofs.PackagedUnit
import FeatureAssembly.Proofs.Parentage
import FeatureAssembly.Proofs.Parts
import FeatureAssembly.Proofs.Paths
import FeatureAssembly.Proofs.Pieces
import FeatureAssembly.Proofs.Prototypes
import FeatureAssembly.Proofs.Provenance
import FeatureAssembly.Proofs.RawFeatures
import FeatureAssembly.Proofs.ReadBack
import FeatureAssembly.Proofs.RepeatedArtifacts
import FeatureAssembly.Proofs.RepositoryPaths
import FeatureAssembly.Proofs.Runs
import FeatureAssembly.Proofs.SortedMap
import FeatureAssembly.Proofs.Soundness
import FeatureAssembly.Proofs.Step
import FeatureAssembly.Proofs.Termination
import FeatureAssembly.Proofs.Vetting
import FeatureAssembly.Proofs.WalkOrder
import FeatureAssembly.Proofs.WithinModule
import FeatureAssembly.Proofs.WorkDone
import FeatureAssembly.Proofs.WrittenFiles
import FeatureAssembly.Reactor
import FeatureAssembly.Reactor.BuildOrder
import FeatureAssembly.Reactor.Module
import FeatureAssembly.Scope
import FeatureAssembly.Session
import FeatureAssembly.SortedMap
import FeatureAssembly.Source
import FeatureAssembly.Store
import FeatureAssembly.Text.Quoted
import FeatureAssembly.Text.Seen
import FeatureAssembly.Text.Segments
