import JackToolchain.CommandLine.Help
import JackToolchain.CommandLine.Parser
import JackToolchain.CommandLine.Settings
import JackToolchain.Files.Output
import JackToolchain.Files.Roster
import JackToolchain.Files.Source
import JackToolchain.Hack.Builder
import JackToolchain.Jack.Lexer
import JackToolchain.Jack.Program
import JackToolchain.Jack.Reading.Expression
import JackToolchain.Main
import JackToolchain.Proofs.Hack.Access
import JackToolchain.Proofs.Hack.Calling
import JackToolchain.Proofs.Jack.Execution
import JackToolchain.Terminal.Log
import JackToolchain.Terminal.Snippet
import JackToolchain.Text.Basic
import JackToolchain.Text.Lines
import JackToolchain.Text.Position
import JackToolchain.Tool.Compiler
import JackToolchain.Tool.Translator
import JackToolchain.Vm.Reader
import JackToolchain.Proofs.Vm.Height
import JackToolchain.Proofs.Jack.Balance
import JackToolchain.Proofs.Jack.Grammar.Class
import JackToolchain.Proofs.Jack.Reading.Class
import JackToolchain.Proofs.Jack.Derivation.Class
import JackToolchain.Proofs.Jack.Scope
import JackToolchain.Proofs.Jack.Words
import JackToolchain.Proofs.Jack.Acceptance
import JackToolchain.Proofs.Jack.Emission
import JackToolchain.Proofs.Jack.Blocks
import JackToolchain.Proofs.Text.Lines
import JackToolchain.Proofs.Vm.Listing
import JackToolchain.Proofs.Jack.Output
import JackToolchain.Proofs.Jack.Independence
import JackToolchain.Proofs.Jack.Segments
import JackToolchain.Proofs.Text.Joined
import JackToolchain.Proofs.Hack.Sites
import JackToolchain.Proofs.Hack.Labels
import JackToolchain.Proofs.Jack.Linking
import JackToolchain.Proofs.Hack.Mangling
import JackToolchain.Proofs.Hack.Freshness
import JackToolchain.Proofs.Jack.Object
import JackToolchain.Proofs.Jack.Lowered
import JackToolchain.Proofs.Hack.Literals
import JackToolchain.Proofs.Jack.Slices
import JackToolchain.Proofs.Jack.Scan
import JackToolchain.Proofs.Jack.Spelling
import JackToolchain.Proofs.Jack.Numbering
import JackToolchain.Proofs.Jack.Calls
import JackToolchain.Proofs.Jack.Passing
import JackToolchain.Proofs.Outcome
import JackToolchain.Proofs.Vm.Canonical
import JackToolchain.Proofs.Files.Actions
import JackToolchain.Proofs.Hack.Annotation
import JackToolchain.Proofs.Hack.Comparison
import JackToolchain.Proofs.Tool.FaultyInput
import JackToolchain.Proofs.Text.Words
import JackToolchain.Proofs.Text.Position
import JackToolchain.Proofs.Text.Boundary
import JackToolchain.Proofs.Vm.Grammar
import JackToolchain.Proofs.Vm.Lines
import JackToolchain.Proofs.Vm.Places
import JackToolchain.Proofs.Vm.Region
import JackToolchain.Proofs.Jack.Courses
import JackToolchain.Proofs.Jack.Unrolling
import JackToolchain.Proofs.Jack.Strings
import JackToolchain.Proofs.Jack.Returns
import JackToolchain.Proofs.Hack.Emission
import JackToolchain.Proofs.Hack.Parts
import JackToolchain.Proofs.Jack.Lookahead.Class
import JackToolchain.Proofs.CommandLine.Reading
import JackToolchain.Proofs.CommandLine.Evaluation
import JackToolchain.Proofs.CommandLine.Settings
import JackToolchain.Proofs.Files.Roster
import JackToolchain.Proofs.Tool.Output
