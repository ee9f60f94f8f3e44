import BrainPiet.Colour
import BrainPiet.Operation
import BrainPiet.Shade
import BrainPiet.Source
import BrainPiet.Text.Letter
import BrainPiet.Text.Printable
import BrainPiet.Text.Quoted
import BrainPiet.Text.Decimal
import BrainPiet.Text.Numeral
import BrainPiet.Binary64
import BrainPiet.Heading
import BrainPiet.Machine.Number
import BrainPiet.Machine.Basic
import BrainPiet.TapeStack
import BrainPiet.Grid
import BrainPiet.Session.Fault
import BrainPiet.Session.Column
import BrainPiet.Session.Basic
import BrainPiet.Session.Stroke
import BrainPiet.Template
import BrainPiet.Translate
import BrainPiet.Setting
import BrainPiet.Imaging
import BrainPiet.Raster
import BrainPiet.Picture.Fresh
import BrainPiet.Picture.Codel
import BrainPiet.Picture.Block
import BrainPiet.Picture.Walk
import BrainPiet.Run
import BrainPiet.Png.Checksum
import BrainPiet.Png.Bitmap
import BrainPiet.Png.Inflate
import BrainPiet.Png.Filter
import BrainPiet.Png.Repeat
import BrainPiet.Png.CodeTree
import BrainPiet.Png.Deflate
import BrainPiet.Png.Encode
import BrainPiet.Png.Decode
import BrainPiet.Png.Library
import BrainPiet.Store
import BrainPiet.FileTree
import BrainPiet.Compile
import BrainPiet.Command.Form
import BrainPiet.Command.Word
import BrainPiet.Command.Arguments
import BrainPiet.Command.Basic
import BrainPiet.Main
import BrainPiet.Tape.Basic
import BrainPiet.Tape.Program
import BrainPiet.Proofs.Sequence
import BrainPiet.Proofs.Picture.Component
import BrainPiet.Proofs.Picture.Scan
import BrainPiet.Proofs.Picture.Edge
import BrainPiet.Proofs.Picture.Glide
import BrainPiet.Proofs.Picture.Step
import BrainPiet.Proofs.Picture.Blocks
import BrainPiet.Proofs.Walk.Path
import BrainPiet.Proofs.Walk.Comb
import BrainPiet.Proofs.Machine.Effect
import BrainPiet.Proofs.Walk.Lane
import BrainPiet.Proofs.Drawing.Row
import BrainPiet.Proofs.Drawing.Tile
import BrainPiet.Proofs.Drawing.Bracket
import BrainPiet.Proofs.Drawing.Shape
import BrainPiet.Proofs.Drawing.Cursor
import BrainPiet.Proofs.Nesting
import BrainPiet.Proofs.Brackets
import BrainPiet.Proofs.Parsing
import BrainPiet.Proofs.Drawing.Program
import BrainPiet.Proofs.Translation
import BrainPiet.Proofs.Drawing.View
import BrainPiet.Proofs.Walk.Column
import BrainPiet.Proofs.Walk.Tile
import BrainPiet.Proofs.Machine.Act
import BrainPiet.Proofs.Machine.Roll
import BrainPiet.Proofs.Walk.Block
import BrainPiet.Proofs.Drawing.Loop
import BrainPiet.Proofs.Walk.Loop
import BrainPiet.Proofs.Routing
import BrainPiet.Proofs.Walk.Advance
import BrainPiet.Proofs.Walk.Read
import BrainPiet.Proofs.Walk.Ending
import BrainPiet.Proofs.Walk.Opening
import BrainPiet.Proofs.Walk.Layout
import BrainPiet.Proofs.Safety
import BrainPiet.Proofs.Machine.Tape
import BrainPiet.Proofs.Limit
import BrainPiet.Proofs.Simulation
import BrainPiet.Proofs.ByteCells
import BrainPiet.Proofs.Appending
import BrainPiet.Proofs.Machine.Progress
import BrainPiet.Proofs.Picture.Outcome
import BrainPiet.Proofs.RunSafety
import BrainPiet.Proofs.Tracing
import BrainPiet.Proofs.Encoding
import BrainPiet.Proofs.FileTree
import BrainPiet.Proofs.Png.Bits
import BrainPiet.Proofs.Png.PrefixCode
import BrainPiet.Proofs.Png.CodeTree
import BrainPiet.Proofs.Png.CodeLength
import BrainPiet.Proofs.Png.Repeat
import BrainPiet.Proofs.Png.Body
import BrainPiet.Proofs.Png.CodesInFront
import BrainPiet.Proofs.Png.Deflate
import BrainPiet.Proofs.Png.Bitmap
import BrainPiet.Proofs.Png.File
import BrainPiet.Proofs.Png.Library
import BrainPiet.Proofs.Scaling
import BrainPiet.Proofs.Command.Reading
import BrainPiet.Proofs.Command.Target
import BrainPiet.Proofs.Compilation
import BrainPiet.Proofs.Templates
import BrainPiet.Proofs.Picture.Slide
import BrainPiet.Proofs.Picture.Exits
import BrainPiet.Proofs.Picture.Straight
import BrainPiet.Proofs.Picture.Ragged
import BrainPiet.Proofs.Machine.Depth
import BrainPiet.Proofs.Machine.Numerals
import BrainPiet.Proofs.Drawing.Lasting
import BrainPiet.Proofs.Drawing.LoopWord
import BrainPiet.Proofs.Drawing.Extent
import BrainPiet.Proofs.Dimensions
import BrainPiet.Proofs.Overpainting
