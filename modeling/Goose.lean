import Goose.Coq.Text
import Goose.Coq.Ast
import Goose.Coq.Buffer
import Goose.Coq.Print
import Goose.Coq.Layout
import Goose.Coq.NoPanic
import Goose.Coq.Comment
import Goose.Coq.Reparse
import Goose.Coq.Brackets
import Goose.Coq.Trailing
import Goose.Coq.Literal
import Goose.Coq.Alphabet
import Goose.Coq.Skeleton
import Goose.Coq.Quoting
import Goose.Coq.Types
import Goose.Coq.Signatures
import Goose.Coq.Normalize
