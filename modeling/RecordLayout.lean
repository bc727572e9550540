import RecordLayout.Codec.Collect
import RecordLayout.Codec.Handle
import RecordLayout.Codec.Partial
import RecordLayout.Proofs.Chunk.Program
import RecordLayout.Proofs.Chunk.Replay
import RecordLayout.Proofs.Codec.Approved
import RecordLayout.Proofs.Codec.ChosenWidths
import RecordLayout.Proofs.Codec.DeclarationOrder
import RecordLayout.Proofs.Codec.Dereferenced
import RecordLayout.Proofs.Codec.Filled
import RecordLayout.Proofs.Codec.Foreign
import RecordLayout.Proofs.Codec.Handle
import RecordLayout.Proofs.Codec.Ownership
import RecordLayout.Proofs.Codec.Packed
import RecordLayout.Proofs.Codec.PartialFailure
import RecordLayout.Proofs.Codec.PartialRead
import RecordLayout.Proofs.Codec.PartialWrite
import RecordLayout.Proofs.Codec.Rewrite
import RecordLayout.Proofs.Codec.Settled
import RecordLayout.Proofs.Codec.Update
import RecordLayout.Proofs.Layout.History
import RecordLayout.Proofs.Layout.Inquiry
import RecordLayout.Proofs.Plan.Least
import RecordLayout.Proofs.Size.Checked
import RecordLayout.Proofs.Size.Requested
import RecordLayout.Proofs.Size.Written
import RecordLayout.Proofs.Stream.Script
import RecordLayout.Proofs.Stream.Transaction
import RecordLayout.Proofs.Stream.Varint
import RecordLayout.Proofs.Stream.Words
import RecordLayout.Proofs.TypeIds
import RecordLayout.Schema.Rule
import RecordLayout.Session.Scope
import RecordLayout.Stream.Script
