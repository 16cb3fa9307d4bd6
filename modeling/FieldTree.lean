import FieldTree.Binding
import FieldTree.Listing
import FieldTree.Main
import FieldTree.Session
import FieldTree.Proofs.Runs
import FieldTree.Proofs.Tree
import FieldTree.Proofs.Json.Rollback
import FieldTree.Proofs.Json.RoundTrip
import FieldTree.Proofs.Signature.Matching
import FieldTree.Proofs.Signature.Grammar
import FieldTree.Proofs.Independence
import FieldTree.Proofs.Json.Grammar
import FieldTree.Proofs.Preservation
import FieldTree.Proofs.Failures
import FieldTree.Proofs.Frame
import FieldTree.Proofs.Json.Appending
import FieldTree.Proofs.Adoption
import FieldTree.Proofs.Capacity
import FieldTree.Proofs.Decimal
import FieldTree.Proofs.Json.Real
import FieldTree.Proofs.Json.Nesting
import FieldTree.Proofs.AppendLaw
import FieldTree.Proofs.Copies
import FieldTree.Proofs.Binding
import FieldTree.Proofs.Commands
import FieldTree.Proofs.Arguments
import FieldTree.Proofs.Closing
import FieldTree.Proofs.Readers
import FieldTree.Proofs.Descent
import FieldTree.Proofs.Json.Lines
import FieldTree.Proofs.Signature.Faults
import FieldTree.Proofs.Listing.Reading
import FieldTree.Proofs.Effects
import FieldTree.Proofs.Binary.Nearest
import FieldTree.Proofs.Reals
import FieldTree.Proofs.Numeral.Real
import FieldTree.Proofs.Numeral.Integer
import FieldTree.Proofs.Texts
import FieldTree.Proofs.Integers
import FieldTree.Proofs.HeaderWord
