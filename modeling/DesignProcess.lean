import DesignProcess.Assembly
import DesignProcess.AssemblyError
import DesignProcess.CallSpec.Basic
import DesignProcess.CallSpec.Error
import DesignProcess.CallSpec.Reading
import DesignProcess.CallSpec.Token
import DesignProcess.CommandLine.Arguments
import DesignProcess.CommandLine.Report
import DesignProcess.CommandLine.Run
import DesignProcess.CommandLine.Wanted
import DesignProcess.Component.Basic
import DesignProcess.Component.Builtin
import DesignProcess.Component.Option
import DesignProcess.Decimal.Layout
import DesignProcess.Decimal.Numeral
import DesignProcess.Decimal.Shortest
import DesignProcess.Descriptions
import DesignProcess.Dictionary
import DesignProcess.Discovery
import DesignProcess.Document.Basic
import DesignProcess.Document.Format
import DesignProcess.Document.Reading
import DesignProcess.Document.Sameness
import DesignProcess.Document.Sample
import DesignProcess.Document.Schema
import DesignProcess.Expectation
import DesignProcess.Files.Path
import DesignProcess.Files.System
import DesignProcess.KeyPath
import DesignProcess.Main
import DesignProcess.Manifest.Basic
import DesignProcess.Manifest.Checking
import DesignProcess.Manifest.Reading
import DesignProcess.Manifest.Toml
import DesignProcess.Manifest.Yaml
import DesignProcess.Model.Basic
import DesignProcess.Model.Building
import DesignProcess.Optimization
import DesignProcess.Progress
import DesignProcess.Proofs.Assembly.Course
import DesignProcess.Proofs.Assembly.Folders
import DesignProcess.Proofs.CallSpec.ArgumentList
import DesignProcess.Proofs.CallSpec.Cutting
import DesignProcess.Proofs.CallSpec.FloatText
import DesignProcess.Proofs.CallSpec.Grammar
import DesignProcess.Proofs.CallSpec.Lexeme
import DesignProcess.Proofs.CallSpec.Lexing
import DesignProcess.Proofs.CallSpec.LongestMatch
import DesignProcess.Proofs.CallSpec.Parsing
import DesignProcess.Proofs.CallSpec.Printing
import DesignProcess.Proofs.CallSpec.Qualified
import DesignProcess.Proofs.CallSpec.RoundTrip
import DesignProcess.Proofs.CallSpec.Spelling
import DesignProcess.Proofs.CallSpec.Stages
import DesignProcess.Proofs.CallSpec.WellFormed
import DesignProcess.Proofs.Component.Bounds
import DesignProcess.Proofs.Component.Checking
import DesignProcess.Proofs.Component.Declaring
import DesignProcess.Proofs.Component.History
import DesignProcess.Proofs.Component.Reached
import DesignProcess.Proofs.Component.Setting
import DesignProcess.Proofs.Decimal.Finite
import DesignProcess.Proofs.Decimal.Rounding
import DesignProcess.Proofs.Decimal.Signed
import DesignProcess.Proofs.Decimal.Value
import DesignProcess.Proofs.Discovery.Arrangement
import DesignProcess.Proofs.Discovery.Growth
import DesignProcess.Proofs.Discovery.Listing
import DesignProcess.Proofs.Discovery.Staging
import DesignProcess.Proofs.Document.Conformance
import DesignProcess.Proofs.Document.Faults
import DesignProcess.Proofs.Document.Image
import DesignProcess.Proofs.Document.Interpretation
import DesignProcess.Proofs.Document.Leaf
import DesignProcess.Proofs.Document.Location
import DesignProcess.Proofs.Document.Naming
import DesignProcess.Proofs.Document.Node
import DesignProcess.Proofs.Document.Optimization
import DesignProcess.Proofs.Document.Record
import DesignProcess.Proofs.Encoding.Agreement
import DesignProcess.Proofs.Encoding.Integers
import DesignProcess.Proofs.Encoding.Lowering
import DesignProcess.Proofs.Encoding.Nodes
import DesignProcess.Proofs.Encoding.Omission
import DesignProcess.Proofs.Encoding.Optimizations
import DesignProcess.Proofs.Manifest.Acceptance
import DesignProcess.Proofs.Manifest.Options
import DesignProcess.Proofs.Model.Building
import DesignProcess.Proofs.Model.Declared
import DesignProcess.Proofs.Model.Extension
import DesignProcess.Proofs.Model.Fault
import DesignProcess.Proofs.Model.Mirror
import DesignProcess.Proofs.Model.Paths
import DesignProcess.Proofs.Model.Settings
import DesignProcess.Proofs.Model.Steps
import DesignProcess.Proofs.Nesting
import DesignProcess.Proofs.Optimization.Binding
import DesignProcess.Proofs.Outcome
import DesignProcess.Proofs.Registry.Calls
import DesignProcess.Proofs.Registry.Runs
import DesignProcess.Proofs.Registry.Templates
import DesignProcess.Proofs.Solver.Qualified
import DesignProcess.Proofs.Text.Classes
import DesignProcess.Proofs.Text.Dotted
import DesignProcess.Proofs.Toml.Assignments
import DesignProcess.Proofs.Toml.Numbers
import DesignProcess.Proofs.Yaml.Bare
import DesignProcess.Proofs.Yaml.Lines
import DesignProcess.Proofs.Yaml.Look
import DesignProcess.Proofs.Yaml.Nested
import DesignProcess.Registry
import DesignProcess.Scalar
import DesignProcess.Solver.Binding
import DesignProcess.Solver.Kind
import DesignProcess.Text.Blank
import DesignProcess.Text.Bytes
import DesignProcess.Text.Search
import DesignProcess.Toml.Atom
import DesignProcess.Toml.Quoted
import DesignProcess.Toml.Reading
import DesignProcess.Toml.Statement
import DesignProcess.Toml.Table
import DesignProcess.Toml.Value
import DesignProcess.Value.Basic
import DesignProcess.Value.Toml
import DesignProcess.Value.Yaml
import DesignProcess.Yaml.Block
import DesignProcess.Yaml.Cursor
import DesignProcess.Yaml.Label
import DesignProcess.Yaml.Layout
import DesignProcess.Yaml.Node
import DesignProcess.Yaml.Plain
import DesignProcess.Yaml.Quoted
import DesignProcess.Yaml.Tag
import DesignProcess.Yaml.Token
import DesignProcess.Yaml.Value
import DesignProcess.Proofs.CallSpec.FirstOffence
import DesignProcess.Proofs.Descriptions.Lines
import DesignProcess.Proofs.Descriptions.Folders
import DesignProcess.Proofs.CommandLine.Agreement
import DesignProcess.Proofs.KeyPath
