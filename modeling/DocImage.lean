import DocImage.Main
import DocImage.Files.Step
import DocImage.Markup.Token.Local
import DocImage.Text.Utf8.RoundTrip
import DocImage.Files.Error
import DocImage.Proofs.Extraction.Cutting
import DocImage.Proofs.Extraction.Found
import DocImage.Proofs.Extraction.Spans
import DocImage.Proofs.Extraction.Forest
import DocImage.Proofs.Address.Cache
import DocImage.Proofs.Presentation.Rendered
import DocImage.Proofs.Presentation.Session
import DocImage.Proofs.Files.Walk
import DocImage.Proofs.Image.Delivery
import DocImage.Proofs.Image.Probing
import DocImage.Proofs.Image.Failing
import DocImage.Proofs.Extraction.Course
import DocImage.Proofs.Extraction.Surroundings
import DocImage.Proofs.Extraction.Sanitized
import DocImage.Proofs.Extraction.Mark
import DocImage.Proofs.Presentation.History
import DocImage.Proofs.Files.Names
import DocImage.Proofs.Text.Coding
import DocImage.Proofs.Address.Decoding
import DocImage.Proofs.Text.Units
import DocImage.Proofs.ImageTag.Asked
import DocImage.Proofs.Extraction.SingleImage
import DocImage.Proofs.Text.Faults
import DocImage.Proofs.Text.Occurrence
import DocImage.Proofs.Text.Lines
import DocImage.Proofs.Image.Recognition
import DocImage.Proofs.Image.Numbers
import DocImage.Proofs.Image.Segments
import DocImage.Proofs.Image.Unrecognized
import DocImage.Proofs.Image.FixedPlaces
import DocImage.Proofs.Image.QuotedEdges
import DocImage.Proofs.Image.RootEdges
import DocImage.Proofs.Image.LineEnds
import DocImage.Proofs.Files.LastName
import DocImage.Proofs.Image.Formats
import DocImage.Proofs.Drawing.Rounding
import DocImage.Proofs.Drawing.Factor
import DocImage.Proofs.Drawing.ExactFactor
import DocImage.Proofs.Drawing.HonouredBounds
import DocImage.Proofs.Drawing.Proportions
import DocImage.Proofs.Drawing.RaisedBounds
import DocImage.Proofs.Drawing.Transposed
import DocImage.Proofs.Drawing.Enlarging
import DocImage.Proofs.Image.Usable
import DocImage.Proofs.Presentation.Element
import DocImage.Proofs.Presentation.Roots
import DocImage.Proofs.Presentation.Enlarging
import DocImage.Proofs.CommandLine.Rendering
import DocImage.Proofs.CommandLine.Flags
import DocImage.Proofs.CommandLine.Enlarging
