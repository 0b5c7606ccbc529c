import IndentMarkup.Main
import IndentMarkup.Proofs.Convergence
import IndentMarkup.Proofs.Coupling
import IndentMarkup.Proofs.Coupling.Readers
import IndentMarkup.Proofs.Coupling.Documents
import IndentMarkup.Proofs.Invariant
import IndentMarkup.Proofs.Numbering
import IndentMarkup.Proofs.Termination
import IndentMarkup.Proofs.Linewise
import IndentMarkup.Proofs.TemplateLines
import IndentMarkup.Proofs.Transparency
import IndentMarkup.Proofs.BlankLines
import IndentMarkup.Proofs.Boundary
import IndentMarkup.Proofs.Appending
import IndentMarkup.Proofs.Inlining
import IndentMarkup.Proofs.Places
import IndentMarkup.Proofs.Parts
import IndentMarkup.Proofs.Prologue
import IndentMarkup.Proofs.Spacing
import IndentMarkup.Proofs.Moments
import IndentMarkup.Proofs.Stacks
import IndentMarkup.Proofs.Steps
import IndentMarkup.Proofs.Forest
import IndentMarkup.Proofs.Nesting
import IndentMarkup.Proofs.Settings
import IndentMarkup.Proofs.Coherence
import IndentMarkup.Proofs.EntryPoints
import IndentMarkup.Proofs.Comments.Lines
import IndentMarkup.Proofs.Comments.Readers
import IndentMarkup.Proofs.Comments
import IndentMarkup.Proofs.Checked.Bytes
import IndentMarkup.Proofs.Checked.Format
import IndentMarkup.Proofs.Checked.Lines
import IndentMarkup.Proofs.Checked.Headings
import IndentMarkup.Proofs.Checked
import IndentMarkup.Proofs.Substitution.Pass
import IndentMarkup.Proofs.Substitution
import IndentMarkup.Proofs.Grammar
import IndentMarkup.Proofs.Spans
import IndentMarkup.Proofs.Formatting
import IndentMarkup.Proofs.Independence
import IndentMarkup.Proofs.Calls
import IndentMarkup.Proofs.Escapes
import IndentMarkup.Proofs.Storing
import IndentMarkup.Proofs.Folders
import IndentMarkup.Proofs.Literals
import IndentMarkup.Proofs.Descriptions
import IndentMarkup.Proofs.Headings
import IndentMarkup.Proofs.Columns.Surplus
import IndentMarkup.Proofs.Columns.Readers
import IndentMarkup.Proofs.Columns
import IndentMarkup.Proofs.Gathering
import IndentMarkup.Proofs.Libraries
import IndentMarkup.Proofs.Runs.Cuts
import IndentMarkup.Proofs.Runs
import IndentMarkup.Proofs.Measuring
import IndentMarkup.Proofs.Values
import IndentMarkup.Proofs.Stylesheets
import IndentMarkup.Proofs.Quoting
import IndentMarkup.Proofs.Extensions
import IndentMarkup.Proofs.Commands
import IndentMarkup.Proofs.Skipping
import IndentMarkup.Proofs.Levels
import IndentMarkup.Proofs.Cursor.Consuming
import IndentMarkup.Proofs.Cursor
