import Montage.Box.Medium
import Montage.Config.Composition
import Montage.Html.Popup
import Montage.Proofs.Render.Abandoning
import Montage.Proofs.Render.Attribution
import Montage.Proofs.Render.Containment
import Montage.Proofs.Render.Discarding
import Montage.Proofs.Render.Leaks
import Montage.Proofs.Render.Schedules
import Montage.Proofs.Render.Siblings
import Montage.Proofs.Render.Stages
import Montage.Query.Expression
import Montage.Render.Schedule
import Montage.Render.Superseding
import Montage.Settings.Document
import Montage.Text.Uppercase
import Montage.Proofs.Box.Progress
import Montage.Proofs.Media.Agreement
import Montage.Proofs.Html.Pressing
import Montage.Proofs.Config.Rereading
import Montage.Proofs.Box.Separation
import Montage.Proofs.Render.Repeats
import Montage.Proofs.Render.Termination
import Montage.Proofs.Box.Ink
import Montage.Proofs.Arena.Forest
import Montage.Proofs.Arena.Exchanges
import Montage.Proofs.Html.Reading
import Montage.Proofs.Html.Hovering
import Montage.Proofs.Html.Moves
import Montage.Proofs.Html.Tooltips
import Montage.Proofs.Box.Filling
import Montage.Proofs.Box.Wrappers
import Montage.Proofs.Query.Objects
import Montage.Proofs.Query.Sources
import Montage.Proofs.Query.Brackets
import Montage.Proofs.Config.FieldProps
import Montage.Proofs.Box.Rectangles
import Montage.Proofs.Config.Composing
import Montage.Proofs.Render.Props
import Montage.Proofs.Render.TextLists
import Montage.Proofs.Box.Columns
import Montage.Proofs.Box.Blanks
import Montage.Proofs.Html.Comments
import Montage.Proofs.Render.Snapshots
import Montage.Proofs.Query.Comparing
import Montage.Proofs.Query.Mapping
import Montage.Proofs.Settings.Limits
