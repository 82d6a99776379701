import ClockNet.Alias
import ClockNet.AliasForest
import ClockNet.Attribute
import ClockNet.Buffering.Clocks
import ClockNet.Buffering.Drivers
import ClockNet.Buffering.Handover
import ClockNet.Buffering.Insertion
import ClockNet.Buffering.Options
import ClockNet.Buffering.Order
import ClockNet.Buffering.Report
import ClockNet.Buffering.Run
import ClockNet.Buffering.Tags
import ClockNet.Cell
import ClockNet.Checked.Arithmetic
import ClockNet.Checked.Import
import ClockNet.Checked.Insertion
import ClockNet.Checked.Kernel
import ClockNet.Checked.Reading
import ClockNet.Checked.Registries
import ClockNet.Checked.Run
import ClockNet.Checked.Writing
import ClockNet.CommandLine.Answer
import ClockNet.CommandLine.Arguments
import ClockNet.CommandLine.Disk
import ClockNet.CommandLine.Path
import ClockNet.CommandLine.Perform
import ClockNet.CommandLine.Request
import ClockNet.CommandLine.World
import ClockNet.Constant
import ClockNet.Design
import ClockNet.Direction
import ClockNet.Glob
import ClockNet.Json.Number
import ClockNet.Json.Parser
import ClockNet.Json.Printer
import ClockNet.Json.Value
import ClockNet.Main
import ClockNet.Module
import ClockNet.NetlistJson.Export
import ClockNet.NetlistJson.Import
import ClockNet.NetlistJson.Printer
import ClockNet.NetlistJson.Values
import ClockNet.Proofs.Accounting
import ClockNet.Proofs.Actions
import ClockNet.Proofs.Alias
import ClockNet.Proofs.AliasClasses
import ClockNet.Proofs.AliasForest
import ClockNet.Proofs.Anchors
import ClockNet.Proofs.Arguments
import ClockNet.Proofs.Chunks
import ClockNet.Proofs.Clocks
import ClockNet.Proofs.Command
import ClockNet.Proofs.Connectivity
import ClockNet.Proofs.Descent
import ClockNet.Proofs.DesignRefusals
import ClockNet.Proofs.Drafts
import ClockNet.Proofs.ErrorLines
import ClockNet.Proofs.Fitted
import ClockNet.Proofs.FixedPoint
import ClockNet.Proofs.Frame
import ClockNet.Proofs.GeneratedClocks
import ClockNet.Proofs.Growth
import ClockNet.Proofs.Handover
import ClockNet.Proofs.HeldTexts
import ClockNet.Proofs.Homes
import ClockNet.Proofs.Indices
import ClockNet.Proofs.Integers
import ClockNet.Proofs.Interchange
import ClockNet.Proofs.Keys
import ClockNet.Proofs.Lines
import ClockNet.Proofs.ListedNets
import ClockNet.Proofs.LoadedWires
import ClockNet.Proofs.Loading
import ClockNet.Proofs.MaximalRuns
import ClockNet.Proofs.Mentions
import ClockNet.Proofs.NameMaps
import ClockNet.Proofs.Naming
import ClockNet.Proofs.Nets
import ClockNet.Proofs.NetsRead
import ClockNet.Proofs.Numbering
import ClockNet.Proofs.Obligation
import ClockNet.Proofs.Order
import ClockNet.Proofs.Outcome
import ClockNet.Proofs.Patterns
import ClockNet.Proofs.Persistence
import ClockNet.Proofs.Pins
import ClockNet.Proofs.PortIdentity
import ClockNet.Proofs.PortOrder
import ClockNet.Proofs.PortPairs
import ClockNet.Proofs.Ports
import ClockNet.Proofs.Propagation
import ClockNet.Proofs.Publication
import ClockNet.Proofs.Quiet
import ClockNet.Proofs.Reading
import ClockNet.Proofs.Rebuffering
import ClockNet.Proofs.Refusals
import ClockNet.Proofs.Reimport
import ClockNet.Proofs.Reports
import ClockNet.Proofs.Rerun
import ClockNet.Proofs.Restoration
import ClockNet.Proofs.Result
import ClockNet.Proofs.Retold
import ClockNet.Proofs.Revisit
import ClockNet.Proofs.RoundTrip
import ClockNet.Proofs.Run
import ClockNet.Proofs.Safety
import ClockNet.Proofs.SelectionWords
import ClockNet.Proofs.Selections
import ClockNet.Proofs.SignalRefusals
import ClockNet.Proofs.Signals
import ClockNet.Proofs.SingleOutput
import ClockNet.Proofs.SpelledValues
import ClockNet.Proofs.Spelling
import ClockNet.Proofs.Tables
import ClockNet.Proofs.Tags
import ClockNet.Proofs.Utf8
import ClockNet.Proofs.Values
import ClockNet.Proofs.Words
import ClockNet.Registry
import ClockNet.Rtlil.Error
import ClockNet.Rtlil.Lexer
import ClockNet.Rtlil.Parser
import ClockNet.Rtlil.Printer
import ClockNet.Rtlil.Token
import ClockNet.Selection
import ClockNet.Selection.Parser
import ClockNet.Signal
import ClockNet.Table.Ordered
import ClockNet.Table.Sorted
import ClockNet.Text.Blank
import ClockNet.Text.Hidden
import ClockNet.Text.Quoted
import ClockNet.Text.Split
import ClockNet.Text.Step
import ClockNet.Text.Utf8
import ClockNet.Wire
import ClockNet.Word
