import StackAssembler.Main
import StackAssembler.Proofs.Source.Cursor
import StackAssembler.Proofs.Machine.ByteOrder
import StackAssembler.Proofs.Command.Internal
import StackAssembler.Proofs.Program.Extension
import StackAssembler.Proofs.Program.Failed
import StackAssembler.Proofs.Program.Literal
import StackAssembler.Proofs.Program.Range
import StackAssembler.Proofs.Program.Text
import StackAssembler.Proofs.Program.Layout
import StackAssembler.Proofs.Program.Renaming
import StackAssembler.Proofs.Text.EditDistance
import StackAssembler.Proofs.Program.Suggestions
import StackAssembler.Proofs.Program.BytesRead
import StackAssembler.Proofs.Encoding.FixedOrder
import StackAssembler.Proofs.Program.Listing
import StackAssembler.Proofs.Output.Symbols
import StackAssembler.Proofs.Command.Labels
import StackAssembler.Proofs.Command.Dash
import StackAssembler.Proofs.Command.Settings
import StackAssembler.Proofs.Program.Message
