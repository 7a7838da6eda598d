import ChoiceGrammar.CommandLine.FileTree
import ChoiceGrammar.Main
import ChoiceGrammar.Proofs.Canonical.Concatenation
import ChoiceGrammar.Proofs.Canonical.Pruning
import ChoiceGrammar.Proofs.Canonical.RoundTrip
import ChoiceGrammar.Proofs.CommandLine.Checked
import ChoiceGrammar.Proofs.Corpus.Deeper
import ChoiceGrammar.Proofs.Corpus.Grouping
import ChoiceGrammar.Proofs.Corpus.Loading
import ChoiceGrammar.Proofs.Expansion.Shares
import ChoiceGrammar.Proofs.Expansion.Uniform
import ChoiceGrammar.Proofs.Markup.Uniqueness
import ChoiceGrammar.Proofs.Canonical.Insertion
import ChoiceGrammar.Proofs.Corpus.Joining
import ChoiceGrammar.Proofs.Corpus.Padding
import ChoiceGrammar.Proofs.Expansion.Longest
import ChoiceGrammar.Proofs.Canonical.Compact
import ChoiceGrammar.Proofs.Expansion.Budget
import ChoiceGrammar.Proofs.Expansion.Selection
import ChoiceGrammar.Proofs.Json.Grammar
import ChoiceGrammar.Proofs.Json.Strings
import ChoiceGrammar.Proofs.Json.Numbers
import ChoiceGrammar.Proofs.Json.Passing
import ChoiceGrammar.Proofs.Corpus.Options
import ChoiceGrammar.Proofs.Json.Compact
import ChoiceGrammar.Proofs.Json.Rereading
import ChoiceGrammar.Proofs.Json.Dump
import ChoiceGrammar.Proofs.Corpus.CompactOptions
import ChoiceGrammar.Proofs.Expansion.Replay
import ChoiceGrammar.Proofs.Expansion.Sharing
import ChoiceGrammar.Proofs.TimeSlot
import ChoiceGrammar.Proofs.CommandLine.Printing
