import PdfContent.Drawing.Page
import PdfContent.Filter.Inflate
import PdfContent.Proofs.Drawing.Balance
import PdfContent.Proofs.Drawing.Brackets
import PdfContent.Proofs.Drawing.Carried
import PdfContent.Proofs.Drawing.Command
import PdfContent.Proofs.Drawing.Contents
import PdfContent.Proofs.Drawing.Fonts
import PdfContent.Proofs.Drawing.Isolation
import PdfContent.Proofs.Drawing.Marks
import PdfContent.Proofs.Drawing.Masks
import PdfContent.Proofs.Drawing.Nesting
import PdfContent.Proofs.Drawing.Placement
import PdfContent.Proofs.Filter.Lzw
import PdfContent.Proofs.Store.Load
import PdfContent.Proofs.Store.Trailer
import PdfContent.Proofs.Store.PageTree
import PdfContent.Proofs.Drawing.Alike
import PdfContent.Proofs.Drawing.Alongside
import PdfContent.Proofs.Content.Progress
import PdfContent.Proofs.Drawing.ParameterOrder
import PdfContent.Proofs.Geometry.Outline
import PdfContent.Proofs.Drawing.Paths
import PdfContent.Proofs.Shading.Cells
import PdfContent.Proofs.Drawing.Inks
import PdfContent.Proofs.Drawing.Colors
import PdfContent.Proofs.Drawing.Rejected
import PdfContent.Proofs.Drawing.Clipping
import PdfContent.Proofs.Drawing.Shade
import PdfContent.Proofs.Drawing.PageClip
import PdfContent.Proofs.Geometry.Consistency
import PdfContent.Proofs.Font.Codespace
import PdfContent.Proofs.Font.Characters
import PdfContent.Proofs.Drawing.Strings
import PdfContent.Proofs.Font.GlyphRanges
import PdfContent.Proofs.Font.LastEntry
import PdfContent.Proofs.Font.Texts
import PdfContent.Proofs.Font.Metrics
import PdfContent.Proofs.Shading.Budget
import PdfContent.Proofs.Geometry.Rational
import PdfContent.Proofs.Shading.Subdivision
import PdfContent.Proofs.Shading.Edges
import PdfContent.Proofs.Shading.Tiling
import PdfContent.Proofs.Shading.Surface
import PdfContent.Proofs.Shading.Coons
import PdfContent.Proofs.Color.Outputs
import PdfContent.Proofs.Color.Interpolation
import PdfContent.Proofs.Shading.Triangulation
import PdfContent.Proofs.Shading.PatchRecords
import PdfContent.Proofs.Content.ImageData
import PdfContent.Proofs.Syntax.Lookahead
import PdfContent.Proofs.Shading.Stops
import PdfContent.Proofs.Content.Depth
import PdfContent.Proofs.Syntax.Integers
import PdfContent.Proofs.Syntax.Escapes
import PdfContent.Proofs.Filter.Prediction
import PdfContent.Proofs.Filter.Base85
import PdfContent.Proofs.Filter.Runs
import PdfContent.Proofs.Filter.Hex
import PdfContent.Proofs.Filter.BitCalls
import PdfContent.Proofs.Store.Resolution
import PdfContent.Proofs.Store.Markers
import PdfContent.Proofs.Store.PageAttributes
