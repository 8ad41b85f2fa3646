import TreeDerivation.Derivation.Json
import TreeDerivation.Files.Tree
import TreeDerivation.Main
import TreeDerivation.Proofs.Derivation.Closing
import TreeDerivation.Proofs.Derivation.Discipline
import TreeDerivation.Proofs.Search.Completeness
import TreeDerivation.Proofs.Search.Distinct
import TreeDerivation.Proofs.Search.Ending
import TreeDerivation.Proofs.Search.Collection
import TreeDerivation.Proofs.Search.UnusedViews
import TreeDerivation.Search.Collected
import TreeDerivation.Search.Inspection
import TreeDerivation.Search.Json
import TreeDerivation.Search.Synthesis
import TreeDerivation.Proofs.Json.Lexemes
import TreeDerivation.Proofs.Json.ReadBack
import TreeDerivation.Proofs.Json.Records
import TreeDerivation.Proofs.Json.Nesting
import TreeDerivation.Proofs.Tree.Nesting
import TreeDerivation.Proofs.Documents
import TreeDerivation.Proofs.CommandLine.RoundTrip
import TreeDerivation.Proofs.Derivation.Session
import TreeDerivation.Proofs.Vocabulary.Corpus
import TreeDerivation.Proofs.Search.Heap
import TreeDerivation.Proofs.Derivation.Frame
import TreeDerivation.Proofs.Tree.Faults
import TreeDerivation.Proofs.Vocabulary.Recording
import TreeDerivation.Proofs.Derivation.Skeleton
import TreeDerivation.Proofs.CommandLine.Replay
import TreeDerivation.Proofs.Tree.Display
import TreeDerivation.Proofs.Grammar.Display
import TreeDerivation.Proofs.Search.Configuration
