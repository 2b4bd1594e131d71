import Lox.Access.Password
import Lox.Access.Token
import Lox.Bindings
import Lox.Command.Files
import Lox.Command.Flags
import Lox.Command.Plan
import Lox.Command.Texts
import Lox.Config.Document
import Lox.Config.Dotenv
import Lox.Config.Duration
import Lox.Config.Load
import Lox.Config.LogLevel
import Lox.Config.Settings
import Lox.Decimal.Layout
import Lox.Decimal.Shortest
import Lox.Decimal.Whole
import Lox.Environment
import Lox.Environment.Forest
import Lox.Hash.Blowfish
import Lox.Hash.Sha2
import Lox.Install
import Lox.Json
import Lox.Machine.State
import Lox.Machine.Step
import Lox.Mail.HeaderText
import Lox.Mail.QuotedPrintable
import Lox.Mail.Transcript
import Lox.Main
import Lox.Parse.Cursor
import Lox.Parse.Expression
import Lox.Parse.Fault
import Lox.Parse.Program
import Lox.Proofs.Bindings
import Lox.Proofs.Decimal.Plain
import Lox.Proofs.Environment.ScopeChains
import Lox.Proofs.Lines.Chunks
import Lox.Proofs.Lines.Machine
import Lox.Proofs.Lines.Resolver
import Lox.Proofs.Lines.Scan
import Lox.Proofs.Lines.Store
import Lox.Proofs.Lines.Tree
import Lox.Proofs.Machine.Agreement
import Lox.Proofs.Machine.Answers
import Lox.Proofs.Machine.Assignment
import Lox.Proofs.Machine.Calls
import Lox.Proofs.Machine.Courses
import Lox.Proofs.Machine.Depth
import Lox.Proofs.Machine.Dispatch
import Lox.Proofs.Machine.Enclosed
import Lox.Proofs.Machine.Endings
import Lox.Proofs.Machine.ForLoops
import Lox.Proofs.Machine.Frames
import Lox.Proofs.Machine.Invariant
import Lox.Proofs.Machine.Lifetimes
import Lox.Proofs.Machine.Objects
import Lox.Proofs.Machine.Owners
import Lox.Proofs.Machine.Preservation
import Lox.Proofs.Machine.Restoring
import Lox.Proofs.Machine.Returning
import Lox.Proofs.Machine.Sessions
import Lox.Proofs.Machine.Stack
import Lox.Proofs.Machine.Store
import Lox.Proofs.Machine.Walk
import Lox.Proofs.Machine.World
import Lox.Proofs.Parse.Acceptance
import Lox.Proofs.Parse.Beginnings
import Lox.Proofs.Parse.Boundaries
import Lox.Proofs.Parse.Carrying
import Lox.Proofs.Parse.Climbing
import Lox.Proofs.Parse.Completeness
import Lox.Proofs.Parse.Declared
import Lox.Proofs.Parse.Descent
import Lox.Proofs.Parse.Equations
import Lox.Proofs.Parse.Errors
import Lox.Proofs.Parse.Forward
import Lox.Proofs.Parse.Grammar
import Lox.Proofs.Parse.Lockstep
import Lox.Proofs.Parse.Printed
import Lox.Proofs.Parse.Progress
import Lox.Proofs.Parse.Soundness
import Lox.Proofs.Parse.Stratified
import Lox.Proofs.Parse.Stubs
import Lox.Proofs.Parse.Tiers
import Lox.Proofs.Parse.Viable
import Lox.Proofs.Parse.ViableProgram
import Lox.Proofs.Repl.Continuation
import Lox.Proofs.Repl.MoreLines
import Lox.Proofs.Scan.Joining
import Lox.Proofs.Scan.Lexemes
import Lox.Proofs.Scan.Tiles
import Lox.Proofs.Scan.Words
import Lox.Proofs.Scope.ForLoops
import Lox.Proofs.Scope.Positions
import Lox.Proofs.Scope.Proper
import Lox.Proofs.Scope.Resolving
import Lox.Proofs.Scope.Returns
import Lox.Proofs.Scope.Tidy
import Lox.Proofs.Scope.Violations
import Lox.Proofs.Scope.Visits
import Lox.Proofs.Server.Isolation
import Lox.Proofs.Text.Quoted
import Lox.Proofs.Tree.Printed
import Lox.Proofs.Tree.Spots
import Lox.Repl.Completeness
import Lox.Repl.Conversation
import Lox.Repl.History
import Lox.Report
import Lox.RuntimeError
import Lox.Scope.References
import Lox.Scope.Resolver
import Lox.Server.Connection
import Lox.Server.Handshake
import Lox.Server.Request
import Lox.Server.Routes
import Lox.Session
import Lox.Text.Base64
import Lox.Text.Blank
import Lox.Text.Bytes
import Lox.Text.Path
import Lox.Text.Printable
import Lox.Text.Quoted
import Lox.Text.Utf8
import Lox.Token
import Lox.Token.Scan
import Lox.Tree
import Lox.Tree.Insight
import Lox.Tree.Printer
import Lox.Value
import Lox.Yaml.BlockScalar
import Lox.Yaml.Event
import Lox.Yaml.Fault
import Lox.Yaml.Gap
import Lox.Yaml.Input
import Lox.Yaml.Node
import Lox.Yaml.PlainScalar
import Lox.Yaml.QuotedScalar
import Lox.Yaml.Remark
import Lox.Yaml.Scalar
import Lox.Yaml.Scan
import Lox.Yaml.Source
import Lox.Yaml.Tag
import Lox.Yaml.Token
