import OneTape.Alphabet
import OneTape.Analysis
import OneTape.Catalogue
import OneTape.CommandLine
import OneTape.CommandLine.Options
import OneTape.Config
import OneTape.Config.Reader
import OneTape.Consolidate
import OneTape.Coverage
import OneTape.Description.Grammar
import OneTape.Description.Reader
import OneTape.Description.Report
import OneTape.Description.Writer
import OneTape.Error
import OneTape.Files
import OneTape.FlatMachine
import OneTape.Json
import OneTape.Json.Reader
import OneTape.Loader
import OneTape.Log
import OneTape.Machine
import OneTape.Machine.Escape
import OneTape.Machine.Json
import OneTape.Main
import OneTape.Ordered
import OneTape.Plan
import OneTape.Proofs.Alphabet
import OneTape.Proofs.Analysis
import OneTape.Proofs.Closure
import OneTape.Proofs.Compiled
import OneTape.Proofs.Consolidate
import OneTape.Proofs.Coverage
import OneTape.Proofs.Description.Lexical
import OneTape.Proofs.Description.Lines
import OneTape.Proofs.Description.RoundTrip
import OneTape.Proofs.Description.Output
import OneTape.Proofs.Flatten
import OneTape.Proofs.Invariant
import OneTape.Proofs.Layout
import OneTape.Proofs.Lockstep
import OneTape.Proofs.Name
import OneTape.Proofs.Ordered
import OneTape.Proofs.Simulation.Follow
import OneTape.Proofs.Simulation.Halting
import OneTape.Proofs.Simulation.Observation
import OneTape.Proofs.Simulation.Refinement
import OneTape.Proofs.Simulation.Step
import OneTape.Proofs.Strip
import OneTape.Proofs.Symbol
import OneTape.Proofs.Table.Determinism
import OneTape.Proofs.Table.Discovery
import OneTape.Proofs.Table.Effect
import OneTape.Proofs.Table.Emission
import OneTape.Proofs.Table.Execution
import OneTape.Proofs.Table.Extension
import OneTape.Proofs.Table.Injection
import OneTape.Proofs.Table.Run
import OneTape.Proofs.Table.Shift
import OneTape.Proofs.Table.Sweeps
import OneTape.Proofs.Tapes
import OneTape.Run
import OneTape.Simulation
import OneTape.State
import OneTape.Symbol
import OneTape.Table
import OneTape.Table.Discovery
import OneTape.Table.Execution
import OneTape.Table.Extension
import OneTape.Table.Injection
import OneTape.Tapes
import OneTape.Tapes.Layout
import OneTape.Text.Quoted
import OneTape.Text.Visible
import OneTape.Text.Whitespace
import OneTape.Toml
import OneTape.Toml.DateTime
import OneTape.Toml.Number
import OneTape.Toml.Reader
import OneTape.Toml.Text
import OneTape.Proofs.RoundTrip
import OneTape.Proofs.NestedName
import OneTape.Proofs.Recompilation
import OneTape.Proofs.Tower
import OneTape.Proofs.Injected
import OneTape.Proofs.Simulation.Injection
import OneTape.Proofs.Simulation.Tower
import OneTape.Proofs.RuleSet
import OneTape.Proofs.Rendering
import OneTape.Proofs.Simulation.Truncation
import OneTape.Proofs.Simulation.Parts
import OneTape.Proofs.Description.Locality
import OneTape.Proofs.Description.Pieces
import OneTape.Proofs.Simulation.Escape
import OneTape.Proofs.Description.Edits
import OneTape.Proofs.Table.Assembly
import OneTape.Proofs.Odometer
import OneTape.Proofs.Table.Saturation
import OneTape.Proofs.Reachability
import OneTape.Proofs.TrailingBlanks
import OneTape.Proofs.Loading
import OneTape.Proofs.Library
