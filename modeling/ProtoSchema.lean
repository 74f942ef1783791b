import ProtoSchema.Main
import ProtoSchema.Proofs.Cutting
import ProtoSchema.Proofs.Formatting
import ProtoSchema.Proofs.Positions
import ProtoSchema.Proofs.RoundTrip
import ProtoSchema.Proofs.SchemaDocument
import ProtoSchema.Proofs.Numbering
import ProtoSchema.Proofs.Reporting
import ProtoSchema.Proofs.Verbosity
import ProtoSchema.Proofs.Spans
import ProtoSchema.Proofs.Blanking
import ProtoSchema.Proofs.Thinning
import ProtoSchema.Proofs.Inert
import ProtoSchema.Proofs.Stacking
import ProtoSchema.Proofs.WellFormed
import ProtoSchema.Proofs.Unquoting
import ProtoSchema.Proofs.FieldTypes
import ProtoSchema.Proofs.TokenLists
import ProtoSchema.Proofs.OutputFile
import ProtoSchema.Proofs.Encoding
import ProtoSchema.Proofs.LineEndings
import ProtoSchema.Proofs.LexicalErrors
import ProtoSchema.Proofs.Offences
import ProtoSchema.Proofs.Enclosing
import ProtoSchema.Proofs.Delimiters
import ProtoSchema.Proofs.TreeShape
import ProtoSchema.Proofs.PrettyPrinting
import ProtoSchema.Proofs.Suggestions
import ProtoSchema.Proofs.Spelling
