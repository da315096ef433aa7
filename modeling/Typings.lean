import Typings.Main
import Typings.Proofs.Body.Bare
import Typings.Proofs.Body.Composition
import Typings.Proofs.Body.Filled
import Typings.Proofs.Body.Headers
import Typings.Proofs.Body.Headings
import Typings.Proofs.Body.MemberTypes
import Typings.Proofs.Body.Modules
import Typings.Proofs.Body.Nesting
import Typings.Proofs.Body.OnePass
import Typings.Proofs.Body.Qualification
import Typings.Proofs.Body.References
import Typings.Proofs.Body.Spelling
import Typings.Proofs.Body.Summaries
import Typings.Proofs.Command.Configuring
import Typings.Proofs.Command.Discovery
import Typings.Proofs.Command.Generated
import Typings.Proofs.Command.Links
import Typings.Proofs.Command.OutputPath
import Typings.Proofs.Command.Outputs
import Typings.Proofs.Command.Printing
import Typings.Proofs.Command.Specifiers
import Typings.Proofs.Descriptor.Partition
import Typings.Proofs.Descriptor.RoundTrip
import Typings.Proofs.Documentation.Closing
import Typings.Proofs.Documentation.Independence
import Typings.Proofs.Documentation.Joining
import Typings.Proofs.Documentation.Writing
import Typings.Proofs.Draft.Comments
import Typings.Proofs.Extends.Scanning
import Typings.Proofs.Formatting
import Typings.Proofs.Import.Accounting
import Typings.Proofs.Import.Outcome
import Typings.Proofs.Import.Policy
import Typings.Proofs.Import.References
import Typings.Proofs.Import.Reordering
import Typings.Proofs.Import.Sources
import Typings.Proofs.Import.Specifier
import Typings.Proofs.InitializerForm
import Typings.Proofs.LayoutOrder
import Typings.Proofs.LineEndings
import Typings.Proofs.Path.Places
import Typings.Proofs.Path.Walk
import Typings.Proofs.Text.Exchange
import Typings.Proofs.Text.Lines
import Typings.Proofs.Text.Occurrences
import Typings.Proofs.Text.Replacement
