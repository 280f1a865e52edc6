import Axiomata.CommandLine.Directory
import Axiomata.Log
import Axiomata.Main
import Axiomata.Proofs.Apartness
import Axiomata.Proofs.Atomicity
import Axiomata.Proofs.Canonical
import Axiomata.Proofs.Chains
import Axiomata.Proofs.Completeness
import Axiomata.Proofs.Composition
import Axiomata.Proofs.Consequences
import Axiomata.Proofs.Decomposition
import Axiomata.Proofs.Derivation
import Axiomata.Proofs.Excerpts
import Axiomata.Proofs.Fillings
import Axiomata.Proofs.Fresh
import Axiomata.Proofs.Grammar
import Axiomata.Proofs.Instantiation
import Axiomata.Proofs.Layout
import Axiomata.Proofs.Lines
import Axiomata.Proofs.Lookup
import Axiomata.Proofs.Matching
import Axiomata.Proofs.Ordered
import Axiomata.Proofs.Patterns
import Axiomata.Proofs.Positions
import Axiomata.Proofs.Propagation
import Axiomata.Proofs.Reachable
import Axiomata.Proofs.Readability
import Axiomata.Proofs.Reading
import Axiomata.Proofs.Recompilation
import Axiomata.Proofs.Recovery
import Axiomata.Proofs.Relexing
import Axiomata.Proofs.Relocation
import Axiomata.Proofs.RenamedTheorems
import Axiomata.Proofs.Renaming
import Axiomata.Proofs.Replay
import Axiomata.Proofs.Respacing
import Axiomata.Proofs.RoundTrip
import Axiomata.Proofs.Soundness
import Axiomata.Proofs.Splitting
import Axiomata.Proofs.SuggestionTypes
import Axiomata.Proofs.Suggestions
import Axiomata.Proofs.Templates
import Axiomata.Proofs.TypedSymbols
import Axiomata.Proofs.Violations
import Axiomata.Proofs.Weakening
import Axiomata.Proofs.Words
