import PatternAutomata.Main
import PatternAutomata.Proofs.Exhaustive
import PatternAutomata.Proofs.Find
import PatternAutomata.Proofs.Nesting
import PatternAutomata.Proofs.Losses
import PatternAutomata.Proofs.Construction
import PatternAutomata.Proofs.Subset
import PatternAutomata.Proofs.Determinization
import PatternAutomata.Proofs.Worklist
import PatternAutomata.Proofs.Prefixes
import PatternAutomata.Proofs.Safety
import PatternAutomata.Proofs.Grammar
import PatternAutomata.Proofs.Brackets
import PatternAutomata.Proofs.GroupNumbers
import PatternAutomata.Proofs.Groups
import PatternAutomata.Proofs.Forks
import PatternAutomata.Proofs.Paths
import PatternAutomata.Proofs.Preorder
import PatternAutomata.Proofs.Priority
import PatternAutomata.Proofs.Derivations
import PatternAutomata.Proofs.Shape
import PatternAutomata.Proofs.Balance
import PatternAutomata.Proofs.SyntaxErrors
import PatternAutomata.Proofs.Descent
import PatternAutomata.Proofs.Canonical
import PatternAutomata.Proofs.RangeErrors
import PatternAutomata.Proofs.Bundles
import PatternAutomata.Proofs.Spans
import PatternAutomata.Proofs.Labels
import PatternAutomata.Proofs.Frontier
import PatternAutomata.Proofs.Closure
import PatternAutomata.Proofs.Backtracking
import PatternAutomata.Automaton.NumberedTree
import PatternAutomata.Proofs.NumberedTree
