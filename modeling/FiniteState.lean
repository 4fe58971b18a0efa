import FiniteState.Acceptance
import FiniteState.Alphabet
import FiniteState.Automaton.Basic
import FiniteState.Automaton.Determinism
import FiniteState.Automaton.Edit
import FiniteState.Automaton.Reachable
import FiniteState.Automaton.Text
import FiniteState.Command.Arguments
import FiniteState.Command.Folder
import FiniteState.Command.Run
import FiniteState.Main
import FiniteState.Naming
import FiniteState.Partition.Basic
import FiniteState.Partition.Quotient
import FiniteState.Partition.Refinement
import FiniteState.Pattern
import FiniteState.Problem.Basic
import FiniteState.Proofs.Automaton.Acceptance
import FiniteState.Proofs.Automaton.AcceptingRun
import FiniteState.Proofs.Automaton.Built
import FiniteState.Proofs.Automaton.ByName
import FiniteState.Proofs.Automaton.Change
import FiniteState.Proofs.Automaton.DepthFirst
import FiniteState.Proofs.Automaton.EditSequence
import FiniteState.Proofs.Automaton.InPlace
import FiniteState.Proofs.Automaton.Indexed
import FiniteState.Proofs.Automaton.Isomorphism
import FiniteState.Proofs.Automaton.Listed
import FiniteState.Proofs.Automaton.Numbered
import FiniteState.Proofs.Automaton.Offence
import FiniteState.Proofs.Automaton.Path
import FiniteState.Proofs.Automaton.Reachable
import FiniteState.Proofs.Automaton.Refusal
import FiniteState.Proofs.Automaton.Removal
import FiniteState.Proofs.Automaton.Renaming
import FiniteState.Proofs.Automaton.Residual
import FiniteState.Proofs.Automaton.Walk
import FiniteState.Proofs.Automaton.WellFormed
import FiniteState.Proofs.Command.Outcome
import FiniteState.Proofs.DiscoveryOrder
import FiniteState.Proofs.Distance
import FiniteState.Proofs.Listing
import FiniteState.Proofs.Partition.Assembly
import FiniteState.Proofs.Partition.Classes
import FiniteState.Proofs.Partition.Grouping
import FiniteState.Proofs.Partition.Indistinguishability
import FiniteState.Proofs.Partition.Limit
import FiniteState.Proofs.Partition.Minimal
import FiniteState.Proofs.Partition.Quotient
import FiniteState.Proofs.Partition.QuotientLanguage
import FiniteState.Proofs.Partition.Reduced
import FiniteState.Proofs.Partition.Refinement
import FiniteState.Proofs.Partition.Renaming
import FiniteState.Proofs.Partition.Scan
import FiniteState.Proofs.Partition.Subclass
import FiniteState.Proofs.Partition.Truncation
import FiniteState.Proofs.Problem.Agreement
import FiniteState.Proofs.Problem.Building
import FiniteState.Proofs.Problem.CountedLines
import FiniteState.Proofs.Problem.Declared
import FiniteState.Proofs.Problem.Description
import FiniteState.Proofs.Problem.Deterministic
import FiniteState.Proofs.Problem.Fault
import FiniteState.Proofs.Problem.Message
import FiniteState.Proofs.Problem.Rearrangement
import FiniteState.Proofs.Problem.Recount
import FiniteState.Proofs.Problem.Rejection
import FiniteState.Proofs.Problem.Reordering
import FiniteState.Proofs.Problem.Sheet
import FiniteState.Proofs.Problem.Solvable
import FiniteState.Proofs.Problem.Success
import FiniteState.Proofs.Problem.Warning
import FiniteState.Proofs.Regex.Assembly
import FiniteState.Proofs.Regex.Canonical
import FiniteState.Proofs.Regex.Compilation
import FiniteState.Proofs.Regex.Composition
import FiniteState.Proofs.Regex.Derivation
import FiniteState.Proofs.Regex.Descent
import FiniteState.Proofs.Regex.Escaping
import FiniteState.Proofs.Regex.Faults
import FiniteState.Proofs.Regex.Fragment
import FiniteState.Proofs.Regex.Grammar
import FiniteState.Proofs.Regex.Language
import FiniteState.Proofs.Regex.Literals
import FiniteState.Proofs.Regex.Shortest
import FiniteState.Proofs.Regex.Spelling
import FiniteState.Proofs.Regex.Step
import FiniteState.Proofs.Regex.Trim
import FiniteState.Proofs.Search
import FiniteState.Proofs.Subset.Closure
import FiniteState.Proofs.Subset.Construction
import FiniteState.Proofs.Subset.Exploration
import FiniteState.Proofs.Subset.Idempotence
import FiniteState.Proofs.Subset.JointName
import FiniteState.Proofs.Subset.Language
import FiniteState.Proofs.Subset.Meaning
import FiniteState.Proofs.Subset.Minimization
import FiniteState.Proofs.Subset.Move
import FiniteState.Proofs.Subset.MoveOfSet
import FiniteState.Proofs.Subset.Numbering
import FiniteState.Proofs.Subset.Renaming
import FiniteState.Proofs.Subset.SymbolOrder
import FiniteState.Proofs.Subset.Total
import FiniteState.Proofs.Subset.Trap
import FiniteState.Proofs.Text.Layout
import FiniteState.Subset.Closure
import FiniteState.Subset.Construction
import FiniteState.Text
