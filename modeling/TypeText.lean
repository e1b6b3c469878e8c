import TypeText.Session
import TypeText.Proofs.Readability
import TypeText.Proofs.Document.Rendering
import TypeText.Proofs.Document.Places
import TypeText.Proofs.Document.Grammar
import TypeText.Proofs.Document.FaultPaths
import TypeText.Proofs.Document.TextEquality
import TypeText.Proofs.Equality
import TypeText.Proofs.LinkMarkup
import TypeText.Proofs.Nesting
import TypeText.Proofs.Overriding
import TypeText.Proofs.Scoping
import TypeText.Proofs.Tokens
import TypeText.Proofs.Words
import TypeText.Proofs.Document.FirstFault
import TypeText.Proofs.Reports
import TypeText.Proofs.LinkAnswers
import TypeText.Proofs.Entities
import TypeText.Proofs.Unmarked
import TypeText.Proofs.ExplicitClass
import TypeText.Proofs.Document.Edits
import TypeText.Proofs.Json.Spelling
import TypeText.Proofs.Json.Reading
import TypeText.Proofs.Document.Spelling
import TypeText.Proofs.Document.Cleaning
import TypeText.Proofs.Document.CleanForm
import TypeText.Proofs.Pruning
import TypeText.Proofs.Interchange
import TypeText.Proofs.Document.Positions
import TypeText.Proofs.Document.Untagged
import TypeText.Proofs.Json.Language
import TypeText.Proofs.Json.Numbers
import TypeText.Proofs.Json.Recognition
import TypeText.Proofs.Json.Acceptance
import TypeText.Proofs.Document.ReadErrors
import TypeText.Proofs.OptionLists
import TypeText.Proofs.FixedPoints
import TypeText.Proofs.Emptiness
