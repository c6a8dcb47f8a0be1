import BinaryLayout.Buffer
import BinaryLayout.Buffer.Edit
import BinaryLayout.InPlace
import BinaryLayout.Bytes.Bits
import BinaryLayout.Catalog.History
import BinaryLayout.Declaration.Json
import BinaryLayout.Dialect.Json
import BinaryLayout.Format.Grammar
import BinaryLayout.Format.Bytewise
import BinaryLayout.Layout.Built
import BinaryLayout.Layout.Leaf
import BinaryLayout.Proofs.Blueprint.Plain
import BinaryLayout.Proofs.View.Writing
import BinaryLayout.Value.Json
import BinaryLayout.Value.Shape
import BinaryLayout.View.Sequential
import BinaryLayout.Proofs.Layout.Shape
import BinaryLayout.Proofs.View.Bounds
import BinaryLayout.Proofs.View.Fields
import BinaryLayout.Proofs.View.Copying
import BinaryLayout.Proofs.Layout.Alignment
import BinaryLayout.Proofs.Format.Grammar
import BinaryLayout.Proofs.Format.Concatenation
import BinaryLayout.Proofs.Format.Bytewise
import BinaryLayout.Proofs.Format.Refusals
import BinaryLayout.Proofs.Catalog.Counting
import BinaryLayout.Proofs.Catalog.Independence
import BinaryLayout.Proofs.Catalog.Interning
import BinaryLayout.Proofs.View.Navigation
import BinaryLayout.Proofs.Blueprint.Seats
import BinaryLayout.Proofs.Blueprint.Standing
import BinaryLayout.Proofs.Declaration.Reading
import BinaryLayout.Proofs.Value.Json
import BinaryLayout.Proofs.Bytes.Agreement
import BinaryLayout.Proofs.View.Storing
import BinaryLayout.Proofs.View.Repetition
import BinaryLayout.Proofs.View.Members
import BinaryLayout.Proofs.Buffer.Edits
import BinaryLayout.Proofs.Declaration.Conversion
import BinaryLayout.Proofs.Catalog.Registration
import BinaryLayout.Proofs.Buffer.Accessors
import BinaryLayout.Proofs.Catalog.Keys
import BinaryLayout.Proofs.Format.Suffix
import BinaryLayout.Proofs.Machine.View
