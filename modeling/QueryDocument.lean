import QueryDocument.Document.Equality
import QueryDocument.Render.Formatter
import QueryDocument.Build.Log
import QueryDocument.Json.Encode
import QueryDocument.Json.Decode
import QueryDocument.Proofs.Construction.WellFormed
import QueryDocument.Proofs.Offence
import QueryDocument.Proofs.Construction.Invariant
import QueryDocument.Proofs.Construction.Rebuild
import QueryDocument.Proofs.Construction.Origin
import QueryDocument.Proofs.Binary64.Nearest
import QueryDocument.Proofs.Binary64.ReadBack
import QueryDocument.Proofs.Decimal.Literal
import QueryDocument.Proofs.Decimal.Written
import QueryDocument.Proofs.Binary64.Text
import QueryDocument.Proofs.Grammar.Lexer
import QueryDocument.Proofs.Grammar.Reader
import QueryDocument.Proofs.Grammar.Spelling
import QueryDocument.Proofs.Grammar.Named
import QueryDocument.Proofs.Grammar.Rendered
import QueryDocument.Proofs.Grammar.Parts
import QueryDocument.Proofs.Grammar.ReadBack
import QueryDocument.Proofs.Json.Parsed
import QueryDocument.Proofs.Json.Members
import QueryDocument.Proofs.Json.Sound
import QueryDocument.Proofs.Json.Restored
import QueryDocument.Proofs.Json.Redeclared
import QueryDocument.Proofs.Json.Accepted
import QueryDocument.Proofs.Document.Agreement
import QueryDocument.Proofs.Document.Canonical
import QueryDocument.Proofs.Document.Equivalence
import QueryDocument.Proofs.Document.Reflexive
import QueryDocument.Proofs.Json.Exact
import QueryDocument.Proofs.Json.RoundTrip
import QueryDocument.Proofs.Construction.Lawful
import QueryDocument.Proofs.Json.Denoted
import QueryDocument.Proofs.Json.Checked
import QueryDocument.Proofs.Json.Acceptance
import QueryDocument.Proofs.Render.Blanked
import QueryDocument.Proofs.Render.Masked
import QueryDocument.Proofs.Text.Mask
import QueryDocument.Proofs.Construction.Effect
import QueryDocument.Proofs.Construction.Composed
import QueryDocument.Proofs.Construction.Faults
import QueryDocument.Proofs.Construction.Commuting
import QueryDocument.Proofs.Render.Sigils
import QueryDocument.Proofs.Render.Places
import QueryDocument.Proofs.Render.Layout
import QueryDocument.Proofs.Render.Nested
import QueryDocument.Proofs.Render.Unbroken
import QueryDocument.Proofs.Construction.Shapes
import QueryDocument.Proofs.Render.Constant
import QueryDocument.Proofs.Render.Reordered
import QueryDocument.Proofs.Construction.Settled
import QueryDocument.Proofs.Construction.Declared
import QueryDocument.Proofs.Construction.VariableShapes
import QueryDocument.Proofs.Construction.Arguments
import QueryDocument.Proofs.Grammar.Literal
import QueryDocument.Proofs.Grammar.Quoting
