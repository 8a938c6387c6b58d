import SchemaCompiler.CommandLine.Run
import SchemaCompiler.Convert
import SchemaCompiler.Error
import SchemaCompiler.Filter.Program
import SchemaCompiler.Main
import SchemaCompiler.Proofs.Compile.Assemble
import SchemaCompiler.Proofs.Compile.Comparison
import SchemaCompiler.Proofs.Definitions.Detected
import SchemaCompiler.Proofs.Definitions.Table
import SchemaCompiler.Proofs.Generate.Calls
import SchemaCompiler.Proofs.Generate.Record
import SchemaCompiler.Proofs.Generate.Replay
import SchemaCompiler.Proofs.Generate.Terminates
import SchemaCompiler.Proofs.Module.Closed
import SchemaCompiler.Proofs.Module.Declared
import SchemaCompiler.Proofs.Projection.Agreement
import SchemaCompiler.Proofs.Module.Hygiene
import SchemaCompiler.Proofs.Compile.Policies
import SchemaCompiler.Proofs.Compile.Truncate
import SchemaCompiler.Proofs.Validator.CalledSymbols
import SchemaCompiler.Proofs.Validator.Imports
import SchemaCompiler.Proofs.Compile.Imports
import SchemaCompiler.Proofs.Module.Imports
import SchemaCompiler.Proofs.Generate.AnyOrder
import SchemaCompiler.Proofs.Compile.Sightings
import SchemaCompiler.Proofs.Generate.Findings
import SchemaCompiler.Proofs.Json.Places
import SchemaCompiler.Proofs.Schema.TextAndValue
import SchemaCompiler.Proofs.Schema.Replace
import SchemaCompiler.Proofs.Compile.Interchange
import SchemaCompiler.Proofs.Generate.Mirror
import SchemaCompiler.Proofs.Module.Precedence
import SchemaCompiler.Proofs.Generate.Placement
import SchemaCompiler.Proofs.Generate.Layout
import SchemaCompiler.Proofs.Projection.Aliases
import SchemaCompiler.Proofs.Generate.Again
import SchemaCompiler.Proofs.Compile.Alternatives
import SchemaCompiler.Proofs.Json.Scanned
import SchemaCompiler.Proofs.Schema.Accepted
import SchemaCompiler.Proofs.Schema.Grammar
import SchemaCompiler.Proofs.Schema.FirstFault
import SchemaCompiler.Proofs.Validator.GivenValues
import SchemaCompiler.Proofs.Json.FromText
import SchemaCompiler.Proofs.Generate.Twice
import SchemaCompiler.Proofs.Pattern.Elements
import SchemaCompiler.Proofs.Generate.Keys
import SchemaCompiler.Proofs.Generate.Located
import SchemaCompiler.Proofs.Compile.Followed
import SchemaCompiler.Proofs.Module.Comments
import SchemaCompiler.Proofs.Definitions.Allocation
import SchemaCompiler.Proofs.Definitions.Sanitized
import SchemaCompiler.Proofs.Generate.Exact
