import Offside.Completion.Diagnostic
import Offside.Display.Styled
import Offside.Outline.Listing
import Offside.Promise
import Offside.Proofs.Requests
import Offside.Proofs.Conservation
import Offside.Proofs.Crowding
import Offside.Proofs.LineEndings
import Offside.Proofs.Values
import Offside.Proofs.Searches
import Offside.Proofs.Previews
import Offside.Proofs.Landings
import Offside.Proofs.Recorders
import Offside.Proofs.Applications
import Offside.Proofs.Decisions
import Offside.Proofs.LineTables
import Offside.Proofs.Relocations
import Offside.Proofs.ReturnedLines
import Offside.Proofs.Lookups
import Offside.Proofs.ExistingPaths
import Offside.Proofs.QuotedKeys
import Offside.Proofs.Entries
import Offside.Proofs.Comments
import Offside.Proofs.DottedNames
import Offside.Proofs.Scores
import Offside.Proofs.ByteOrder
import Offside.Proofs.LongestStarts
import Offside.Proofs.Rankings
import Offside.Proofs.Loading
import Offside.Proofs.PropertyFields
import Offside.Proofs.HoverTexts
import Offside.Proofs.ShortTypes
import Offside.Proofs.Shifts
