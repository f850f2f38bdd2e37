import PhraseStructure.Files.Directory
import PhraseStructure.Grammar.Derivation
import PhraseStructure.Grammar.LeftCorner
import PhraseStructure.Grammar.RuleShape
import PhraseStructure.Main
import PhraseStructure.Tree.Preorder
import PhraseStructure.Proofs.Derivation
import PhraseStructure.Proofs.TopDown.Outcome
import PhraseStructure.Proofs.TopDown.Reading
import PhraseStructure.Proofs.TopDown.Soundness
import PhraseStructure.Proofs.Reach
import PhraseStructure.Proofs.CornerRank
import PhraseStructure.Proofs.TopDown.Completeness
import PhraseStructure.Proofs.TopDown.Failure
import PhraseStructure.Proofs.TopDown.Locality
import PhraseStructure.Proofs.TopDown.EmptyAtEnd
import PhraseStructure.Proofs.TopDown.DepthLimit
import PhraseStructure.Proofs.CornerTable
import PhraseStructure.Proofs.ShiftReduce.Handle
import PhraseStructure.Proofs.ShiftReduce.Invariant
import PhraseStructure.Proofs.Agreement
import PhraseStructure.Proofs.Descent
import PhraseStructure.Proofs.ShiftReduce.Overlap
import PhraseStructure.Proofs.ShiftReduce.Completeness
import PhraseStructure.Proofs.Sentence.Choice
import PhraseStructure.Proofs.Sentence.Expansion
import PhraseStructure.Proofs.Sentence.Language
import PhraseStructure.Proofs.Sentence.RoundTrip
import PhraseStructure.Proofs.Sentence.Failure
import PhraseStructure.Proofs.Sentence.Success
import PhraseStructure.Proofs.MissingRules
import PhraseStructure.Proofs.Text.Chunks
import PhraseStructure.Proofs.Text.Lines
import PhraseStructure.Proofs.Declaring
import PhraseStructure.Proofs.Reader.RuleLines
import PhraseStructure.Proofs.Reader.WellFormed
import PhraseStructure.Proofs.Reader.RoundTrip
import PhraseStructure.Proofs.Reader.Misplaced
import PhraseStructure.Proofs.ShiftReduce.Divergence
import PhraseStructure.Proofs.TopDown.Prefix
import PhraseStructure.Proofs.TopDown.Subtree
import PhraseStructure.Proofs.Leftmost
import PhraseStructure.Proofs.TopDown.Mismatch
import PhraseStructure.Proofs.TopDown.NoMatch
import PhraseStructure.Proofs.Lookup
import PhraseStructure.Proofs.TopDown.Shadowing
import PhraseStructure.Proofs.ShiftReduce.Ownership
import PhraseStructure.Proofs.RuleOrder
import PhraseStructure.Proofs.Rendering
import PhraseStructure.Proofs.ShiftReduce.History
import PhraseStructure.Proofs.TopDown.History
import PhraseStructure.Proofs.Command.Streams
import PhraseStructure.Proofs.Command.Batch
