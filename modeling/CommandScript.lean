import CommandScript.Binding
import CommandScript.CommandLine.Failure
import CommandScript.CommandLine.FileTree
import CommandScript.CommandLine.Log
import CommandScript.CommandLine.Options
import CommandScript.CommandLine.Plan
import CommandScript.CommandLine.Program
import CommandScript.Compile
import CommandScript.Decimal.Binary64
import CommandScript.Decimal.Layout
import CommandScript.Decimal.Reading
import CommandScript.Decimal.Shortest
import CommandScript.Event
import CommandScript.Expr
import CommandScript.Expr.Evaluation
import CommandScript.Expr.Literal
import CommandScript.Handle
import CommandScript.HostConfig
import CommandScript.Json
import CommandScript.Json.Printer
import CommandScript.Json.Quoted
import CommandScript.Json.Reader
import CommandScript.Logged
import CommandScript.Lookahead
import CommandScript.Machine.CallStack
import CommandScript.Machine.Commands
import CommandScript.Machine.DispatchTable
import CommandScript.Machine.Environment
import CommandScript.Machine.Fault
import CommandScript.Machine.Frame
import CommandScript.Machine.Run
import CommandScript.Main
import CommandScript.NameTable
import CommandScript.Parsing.Expression
import CommandScript.Parsing.Node
import CommandScript.Parsing.Scopes
import CommandScript.Parsing.Stream
import CommandScript.Proofs.Grammar.Acceptance
import CommandScript.Proofs.Grammar.Completeness
import CommandScript.Proofs.Grammar.Nodes
import CommandScript.Proofs.Grammar.Soundness
import CommandScript.Proofs.Outcome
import CommandScript.Proofs.Streams.Buffering
import CommandScript.Proofs.Streams.Row
import CommandScript.Proofs.Streams.Simulation
import CommandScript.Registries
import CommandScript.Script
import CommandScript.Script.Dump
import CommandScript.Script.Linking
import CommandScript.Script.Listing
import CommandScript.Script.Splice
import CommandScript.SyntaxError
import CommandScript.Text.Hidden
import CommandScript.Text.Quoted
import CommandScript.Token
import CommandScript.Token.Lexer
import CommandScript.TokenSource
import CommandScript.Value
import CommandScript.Proofs.Grammar.Leaves
import CommandScript.Proofs.Scripts.Placement
import CommandScript.Proofs.Machine.Arguments
import CommandScript.Proofs.Machine.Faults
import CommandScript.Proofs.Scripts.SpliceChain
import CommandScript.Proofs.Grammar.ExpressionReader
import CommandScript.Proofs.Streams.Independence
import CommandScript.Proofs.Streams.Requests
import CommandScript.Proofs.Machine.Calls
import CommandScript.Proofs.Machine.Steps
import CommandScript.Proofs.Grammar.Origins
import CommandScript.Proofs.Machine.Confinement
import CommandScript.Proofs.Machine.Halting
import CommandScript.Proofs.Machine.Relocation
import CommandScript.Proofs.Tokens.Lexemes
import CommandScript.Proofs.Tokens.Segments
import CommandScript.Proofs.Tokens.Rendering
import CommandScript.Proofs.Grammar.Joining
import CommandScript.Proofs.Scripts.Extension
import CommandScript.Proofs.Machine.Lockstep
import CommandScript.Proofs.Decimal.Digits
import CommandScript.Proofs.Grammar.Legibility
import CommandScript.Proofs.Machine.DryRuns
import CommandScript.Proofs.Json.Grammar
import CommandScript.Proofs.Json.Printing
import CommandScript.Proofs.Decimal.Doubles
import CommandScript.Proofs.Decimal.Rounding
import CommandScript.Proofs.Decimal.Writing
import CommandScript.Proofs.Scripts.Dumps
import CommandScript.Proofs.Config.Tables
import CommandScript.Proofs.Config.Descriptions
import CommandScript.Proofs.Grammar.Constants
import CommandScript.Proofs.Scripts.LeafOrder
import CommandScript.Proofs.Streams.Allowance
import CommandScript.Proofs.Streams.SourceCalls
import CommandScript.Proofs.Grammar.OpenBodies
import CommandScript.Proofs.Streams.Progress
import CommandScript.Proofs.Values.Success
import CommandScript.Proofs.Values.WrapAround
import CommandScript.Proofs.Values.Parameters
import CommandScript.Proofs.Machine.FlagBits
import CommandScript.Proofs.Machine.CompleteTables
import CommandScript.Proofs.Grammar.Numerals
import CommandScript.Proofs.Scripts.Listings
import CommandScript.Proofs.Scripts.LineBreaks
import CommandScript.Proofs.Config.Merging
import CommandScript.Proofs.Machine.StackHistory
