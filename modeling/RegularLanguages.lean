import RegularLanguages.CharRange.Quoted
import RegularLanguages.Automaton.Edit
import RegularLanguages.Main
import RegularLanguages.Proofs.Automaton.Edge
import RegularLanguages.Proofs.CharRange.Pieces
import RegularLanguages.Proofs.Exploration
import RegularLanguages.Proofs.Automaton.Copy
import RegularLanguages.Proofs.Automaton.Constructed
import RegularLanguages.Proofs.Automaton.Difference
import RegularLanguages.Proofs.Automaton.Edit
import RegularLanguages.Proofs.Automaton.Factorization
import RegularLanguages.Proofs.Automaton.Minimality
import RegularLanguages.Proofs.Automaton.Primitive
import RegularLanguages.Proofs.Automaton.Rational
import RegularLanguages.Proofs.Automaton.Reversal
import RegularLanguages.Proofs.Automaton.Walk
import RegularLanguages.Proofs.ClassTable
import RegularLanguages.Proofs.EmptyLanguage
import RegularLanguages.Proofs.Minimization
import RegularLanguages.Proofs.Pattern.Language
import RegularLanguages.Proofs.Pattern.RoundTrip
import RegularLanguages.Proofs.Automaton.Dot
import RegularLanguages.Proofs.Automaton.Trie
import RegularLanguages.Proofs.LexicalLanguage
import RegularLanguages.Proofs.DifferenceFormulations
import RegularLanguages.Proofs.Partition.Coarsest
import RegularLanguages.Proofs.CommandLine.Output
import RegularLanguages.Proofs.BreadthFirst
import RegularLanguages.Proofs.Automaton.Canonical
import RegularLanguages.Proofs.Automaton.Trimming
import RegularLanguages.Proofs.Automaton.SubsetNumbering
import RegularLanguages.Proofs.Pattern.Nullable
import RegularLanguages.Proofs.Pattern.Errors
import RegularLanguages.Proofs.Pattern.NestingLimit
import RegularLanguages.Proofs.Alphabet.Insertion
import RegularLanguages.Proofs.Alphabet.Coverage
import RegularLanguages.Proofs.Automaton.Merging
import RegularLanguages.Proofs.Partition.Duration
