import TokenForest.Balance
import TokenForest.Fold.Forest
import TokenForest.Fold.Nodes
import TokenForest.Fold.Plain
import TokenForest.Fold.Splice
import TokenForest.Fold.Words
import TokenForest.Node.Equality
import TokenForest.Node.Lexemes
import TokenForest.Node.Outline
import TokenForest.Node.Sexpr
import TokenForest.Node.Tokens
import TokenForest.Reader
import TokenForest.Proofs.Linking
import TokenForest.Proofs.Words
import TokenForest.Proofs.Precedence
import TokenForest.Proofs.Placement
import TokenForest.Proofs.Reading
import TokenForest.Proofs.Numerals
import TokenForest.Proofs.Image
import TokenForest.Proofs.Nesting
import TokenForest.Proofs.Rereading
import TokenForest.Proofs.Failures
import TokenForest.Proofs.Depths
import TokenForest.Proofs.Limits
import TokenForest.Proofs.Forms
import TokenForest.Proofs.Acceptance
import TokenForest.Proofs.Bracketing
import TokenForest.Proofs.Spacing
import TokenForest.Proofs.Separation
import TokenForest.Proofs.Roles
import TokenForest.Proofs.Interpretation
import TokenForest.Proofs.Extension
import TokenForest.Proofs.Origins
import TokenForest.Proofs.Likeness
import TokenForest.Proofs.Lockstep
import TokenForest.Proofs.Classes
import TokenForest.Proofs.Ranking
import TokenForest.Proofs.Misplaced
import TokenForest.Proofs.Branching
import TokenForest.Proofs.Excerpts
import TokenForest.Proofs.Quotation
import TokenForest.Proofs.UniqueReading
import TokenForest.Node.Display
import TokenForest.Proofs.Unambiguous
import TokenForest.Proofs.Progress
import TokenForest.Proofs.Spelling
import TokenForest.Proofs.Sites
import TokenForest.Proofs.Grouping
import TokenForest.Proofs.Locality
import TokenForest.Proofs.Matching
