import ScriptTree.Build
import ScriptTree.Callee
import ScriptTree.Explorer.Dialogue
import ScriptTree.Main
import ScriptTree.Registry
import ScriptTree.Session
import ScriptTree.Token.Shown
import ScriptTree.Tree.Equivalence
import ScriptTree.Proofs.Grammar.Reading
import ScriptTree.Proofs.Grammar.Soundness
import ScriptTree.Proofs.Grammar.Progress
import ScriptTree.Proofs.Grammar.Completeness
import ScriptTree.Proofs.Tree.Conforming
import ScriptTree.Proofs.Grammar.Conformance
import ScriptTree.Proofs.Grammar.Tally
import ScriptTree.Proofs.Grammar.Conservation
import ScriptTree.Proofs.Print.Lexeme
import ScriptTree.Proofs.Print.Writing
import ScriptTree.Proofs.Print.Writable
import ScriptTree.Proofs.Tree.Likeness
import ScriptTree.Proofs.Print.Printing
import ScriptTree.Proofs.Print.Spacing
import ScriptTree.Proofs.Token.Scanning
import ScriptTree.Proofs.Print.Scanned
import ScriptTree.Proofs.Grammar.Brackets
import ScriptTree.Proofs.Print.Ranked
import ScriptTree.Proofs.Print.Rereading.Basic
import ScriptTree.Proofs.Print.Rereading.Expression
import ScriptTree.Proofs.Print.Rereading.Statement
import ScriptTree.Proofs.Print.Rereading
import ScriptTree.Proofs.Tree.Validity
import ScriptTree.Proofs.Tree.Essence
import ScriptTree.Proofs.Path.Descent
import ScriptTree.Proofs.Path.Replacement
import ScriptTree.Proofs.Path.Roles
import ScriptTree.Proofs.Path.Ancestry
import ScriptTree.Proofs.Path.Scopes
import ScriptTree.Proofs.Print.RoundTrip
import ScriptTree.Proofs.Print.Choice
import ScriptTree.Proofs.Token.Lossless
import ScriptTree.Proofs.Token.Locality
import ScriptTree.Proofs.Token.Cutting
import ScriptTree.Proofs.Grammar.Echo
import ScriptTree.Proofs.Grammar.Numeric
import ScriptTree.Proofs.Grammar.Joining
import ScriptTree.Proofs.Grammar.Respacing
import ScriptTree.Proofs.Token.Strings
import ScriptTree.Proofs.Token.Hazards
import ScriptTree.Proofs.Print.Totality
import ScriptTree.Proofs.Explorer.Survival
import ScriptTree.Proofs.Grammar.Remarks
import ScriptTree.Proofs.Explorer.Submission
import ScriptTree.Proofs.Path.Sharing
import ScriptTree.Proofs.Grammar.Precedence
import ScriptTree.Proofs.Print.Veiled
import ScriptTree.Proofs.Print.Attached
import ScriptTree.Proofs.Path.Places
import ScriptTree.Proofs.Path.Stack
import ScriptTree.Proofs.Path.Chains
import ScriptTree.Proofs.Tree.Symmetry
import ScriptTree.Proofs.Path.Extents
import ScriptTree.Proofs.Grammar.Spans
import ScriptTree.Proofs.Token.Slicing
import ScriptTree.Proofs.Grammar.Halting
import ScriptTree.Proofs.Grammar.Widening
import ScriptTree.Proofs.Grammar.Quoting
import ScriptTree.Proofs.Grammar.Slices
import ScriptTree.Proofs.Path.Slices
import ScriptTree.Proofs.Print.Solo
import ScriptTree.Proofs.Print.Callees
import ScriptTree.Proofs.Print.Clashes
import ScriptTree.Proofs.Print.Mixing
import ScriptTree.Proofs.Token.Quotation
import ScriptTree.Proofs.Token.Breaks
import ScriptTree.Proofs.Token.Marks
import ScriptTree.Proofs.Grammar.Enclosing
import ScriptTree.Proofs.Token.Relocating
import ScriptTree.Proofs.Grammar.Concurrence
import ScriptTree.Proofs.Grammar.Rounds
import ScriptTree.Proofs.Grammar.Accord
import ScriptTree.Proofs.Grammar.Advance
import ScriptTree.Proofs.Print.Padded
import ScriptTree.Proofs.Print.Widths
