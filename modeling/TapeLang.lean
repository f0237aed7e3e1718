import TapeLang.Build
import TapeLang.Bundle
import TapeLang.Bytecode
import TapeLang.Bytecode.Assembly
import TapeLang.Bytecode.Compile
import TapeLang.Bytecode.Instruction
import TapeLang.Bytecode.Opcode
import TapeLang.Bytecode.Operands
import TapeLang.Checksum
import TapeLang.Command
import TapeLang.Command.Options
import TapeLang.Highlight
import TapeLang.Machine
import TapeLang.Machine.Fault
import TapeLang.Machine.Host
import TapeLang.Machine.Table
import TapeLang.Main
import TapeLang.ModuleFile
import TapeLang.Path
import TapeLang.Program
import TapeLang.Program.Code
import TapeLang.Program.Draft
import TapeLang.Program.Parser
import TapeLang.Source
import TapeLang.Storage
import TapeLang.Stream.Buffered
import TapeLang.Stream.Device
import TapeLang.Stream.Screen
import TapeLang.Text.Colour
import TapeLang.Text.Decimal
import TapeLang.Text.Printable
import TapeLang.Text.Quoted
import TapeLang.Text.Utf8
import TapeLang.Token
import TapeLang.Volume
import TapeLang.Word
import TapeLang.Proofs.Block
import TapeLang.Proofs.Simulation
import TapeLang.Proofs.Grammar
import TapeLang.Proofs.Nesting
import TapeLang.Proofs.Flatten
import TapeLang.Proofs.Discipline
import TapeLang.Proofs.Safety
import TapeLang.Proofs.Imitation
import TapeLang.Proofs.ModuleFormat
import TapeLang.Proofs.Rewriting
import TapeLang.Proofs.Comments
import TapeLang.Proofs.Bundling
import TapeLang.Proofs.Damage
import TapeLang.Proofs.Hosting
import TapeLang.Proofs.Output
import TapeLang.Proofs.Decoding
import TapeLang.Proofs.Input
import TapeLang.Proofs.Echo
import TapeLang.Proofs.Lines
import TapeLang.Proofs.Prompts
import TapeLang.Proofs.Tails
import TapeLang.Proofs.Dispatch
import TapeLang.Proofs.Position
import TapeLang.Proofs.Containment
import TapeLang.Proofs.Offences
import TapeLang.Proofs.Numbering
import TapeLang.Proofs.Printing
import TapeLang.Proofs.Layout
import TapeLang.Proofs.Acceptance
import TapeLang.Proofs.Faults
import TapeLang.Proofs.Halting
import TapeLang.Proofs.Backtrace
import TapeLang.Proofs.Refusals
import TapeLang.Proofs.Tiling
import TapeLang.Proofs.Fields
import TapeLang.Proofs.Listing
import TapeLang.Proofs.TreeText
import TapeLang.Proofs.Naming
