import DeclarationDocs.CommandLine
import DeclarationDocs.Main
import DeclarationDocs.Proofs.FileTree.Locating
import DeclarationDocs.Proofs.FileTree.Writing
import DeclarationDocs.Proofs.Documenter.Effect
import DeclarationDocs.Proofs.JobQueue
import DeclarationDocs.Proofs.Glob.Matching
import DeclarationDocs.Proofs.Glob.Reading
import DeclarationDocs.Proofs.Path.Order
import DeclarationDocs.Proofs.FileTree.Proper
import DeclarationDocs.Proofs.Glob.Route
import DeclarationDocs.Proofs.Glob.Walking
import DeclarationDocs.Proofs.Glob.Finding
import DeclarationDocs.Proofs.Path.Stripping
import DeclarationDocs.Proofs.Scan.Ordering
import DeclarationDocs.Proofs.Scan.Selecting
import DeclarationDocs.Proofs.Json.Lexeme
import DeclarationDocs.Proofs.Json.Word
import DeclarationDocs.Proofs.Json.Literal
import DeclarationDocs.Proofs.Json.Grammar
import DeclarationDocs.Proofs.Json.Decorating
import DeclarationDocs.Proofs.Path.Relative
import DeclarationDocs.Proofs.FileTree.Destination
import DeclarationDocs.Proofs.Project.Anchored
import DeclarationDocs.Proofs.Project.Placing
import DeclarationDocs.Proofs.Documenter.Containment
import DeclarationDocs.Proofs.Documenter.Overwriting
import DeclarationDocs.Proofs.Glob.Covering
import DeclarationDocs.Proofs.Glob.Composing
import DeclarationDocs.Proofs.Scan.Excluding
import DeclarationDocs.Proofs.TypeScript.Name
import DeclarationDocs.Proofs.TypeScript.Ahead
import DeclarationDocs.Proofs.TypeScript.Advancing
import DeclarationDocs.Proofs.TypeScript.Constructs
import DeclarationDocs.Proofs.TypeScript.Finding
import DeclarationDocs.Proofs.TypeScript.Grouping
import DeclarationDocs.Proofs.TypeScript.Slicing
import DeclarationDocs.Proofs.TypeScript.Ordering
import DeclarationDocs.Proofs.TypeScript.Outline
import DeclarationDocs.Proofs.TypeScript.Clause
import DeclarationDocs.Proofs.TypeScript.Part
import DeclarationDocs.Proofs.TypeScript.Class
import DeclarationDocs.Proofs.TypeScript.Declaration
import DeclarationDocs.Proofs.TypeScript.Statement
import DeclarationDocs.Proofs.TypeScript.RoundTrip
import DeclarationDocs.Proofs.Documenter.Sources
import DeclarationDocs.Proofs.Documenter.Performing
import DeclarationDocs.Proofs.Documenter.Failing
import DeclarationDocs.Proofs.TemplateFolder
import DeclarationDocs.Proofs.Documenter.Reporting
import DeclarationDocs.Proofs.Documenter.Planning
import DeclarationDocs.Proofs.Run.Configuring
import DeclarationDocs.Proofs.Documenter.Marking
import DeclarationDocs.Proofs.Documenter.Laziness
import DeclarationDocs.Proofs.Generator.Calls
import DeclarationDocs.Proofs.Service.Requests
import DeclarationDocs.Proofs.Documenter.Asking
import DeclarationDocs.Proofs.Documenter.Lockstep
import DeclarationDocs.Proofs.Run.Requesting
import DeclarationDocs.Proofs.FileTree.Storing
import DeclarationDocs.Proofs.FileTree.Repeating
import DeclarationDocs.Proofs.Glob.Rewalking
import DeclarationDocs.Proofs.Glob.Exact
import DeclarationDocs.Proofs.Scan.Rescanning
import DeclarationDocs.Proofs.Documenter.Requeueing
import DeclarationDocs.Proofs.Documenter.InStep
import DeclarationDocs.Proofs.Documenter.Rerunning
import DeclarationDocs.Proofs.Json.Printing
import DeclarationDocs.Proofs.Json.Skimming
import DeclarationDocs.Proofs.Json.Skipping
import DeclarationDocs.Proofs.Shape.Reading
import DeclarationDocs.Proofs.Shape.Decoding
import DeclarationDocs.Proofs.Shape.Fitting
import DeclarationDocs.Proofs.Shape.Pointing
import DeclarationDocs.Proofs.Service.Prompting
import DeclarationDocs.Proofs.Service.Answering
import DeclarationDocs.Proofs.Generator.Alike
import DeclarationDocs.Proofs.Documenter.Alike
import DeclarationDocs.Proofs.Run.Secrecy
import DeclarationDocs.Proofs.Lookup
import DeclarationDocs.Proofs.Toml.Distinct
import DeclarationDocs.Proofs.Settings.Merging
import DeclarationDocs.Proofs.Settings.Extracting
import DeclarationDocs.Proofs.Settings.Layering
import DeclarationDocs.Proofs.Settings.Naming
import DeclarationDocs.Proofs.Settings.Judging
import DeclarationDocs.Proofs.Json.Piece
import DeclarationDocs.Proofs.Json.Forgiving
import DeclarationDocs.Proofs.Json.Separating
import DeclarationDocs.Proofs.Json.Lines
import DeclarationDocs.Proofs.Json.Pointing
import DeclarationDocs.Proofs.Json.Verbatim
import DeclarationDocs.Proofs.Json.Clearing
import DeclarationDocs.Proofs.Json.Trailing
import DeclarationDocs.Proofs.Scan.Uniting
import DeclarationDocs.Proofs.Glob.Descending
import DeclarationDocs.Proofs.Scan.Rejecting
import DeclarationDocs.Proofs.Path.Spelling
import DeclarationDocs.Proofs.FileTree.Normalizing
import DeclarationDocs.Proofs.FileTree.Resolving
import DeclarationDocs.Proofs.Project.Mirroring
import DeclarationDocs.Proofs.Characters
import DeclarationDocs.Proofs.Project.Reading
import DeclarationDocs.Proofs.Project.Loading
import DeclarationDocs.Proofs.Url.Percent
import DeclarationDocs.Proofs.Url.Address
import DeclarationDocs.Proofs.Url.Host
import DeclarationDocs.Proofs.Url.Resolving
import DeclarationDocs.Proofs.Url.Rereading
import DeclarationDocs.Proofs.Service.Endpoint
import DeclarationDocs.Proofs.Service.Availability
import DeclarationDocs.Proofs.Category
import DeclarationDocs.Proofs.Prompt
import DeclarationDocs.Proofs.Project.Rejoining
import DeclarationDocs.Proofs.Dialect
