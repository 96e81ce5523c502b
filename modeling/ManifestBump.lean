import ManifestBump.Bump.Execute
import ManifestBump.Bump.Plan
import ManifestBump.Bump.StepOutput
import ManifestBump.CommandLine.Bump
import ManifestBump.CommandLine.Edit
import ManifestBump.CommandLine.Failure
import ManifestBump.CommandLine.Info
import ManifestBump.CommandLine.Invocation
import ManifestBump.CommandLine.Run
import ManifestBump.CommandLine.Session
import ManifestBump.CommandLine.Style
import ManifestBump.CommandLine.Switch
import ManifestBump.Config.Basic
import ManifestBump.Config.Decode
import ManifestBump.Config.Discovery
import ManifestBump.Config.Load
import ManifestBump.Document
import ManifestBump.Event
import ManifestBump.FileTree
import ManifestBump.KeyPath
import ManifestBump.Label
import ManifestBump.Main
import ManifestBump.Manifest.Basic
import ManifestBump.Manifest.Block
import ManifestBump.Manifest.Error
import ManifestBump.Manifest.Format
import ManifestBump.Manifest.Json
import ManifestBump.Manifest.Outline
import ManifestBump.Manifest.Podspec
import ManifestBump.Manifest.Storage
import ManifestBump.Manifest.Yaml
import ManifestBump.Notation.Basic
import ManifestBump.Notation.Json.Lexeme
import ManifestBump.Notation.Json.Pretty
import ManifestBump.Notation.Json.Record
import ManifestBump.Notation.Json.Value
import ManifestBump.Notation.Toml
import ManifestBump.Notation.Toml.Lexeme
import ManifestBump.Notation.Toml.Value
import ManifestBump.Notation.Yaml
import ManifestBump.Notation.Yaml.Node
import ManifestBump.Notation.Yaml.Place
import ManifestBump.Notation.Yaml.Scalar
import ManifestBump.Path
import ManifestBump.Proofs.Bump.Delivery
import ManifestBump.Proofs.Bump.Execute
import ManifestBump.Proofs.Bump.Plan
import ManifestBump.Proofs.Bump.Runs
import ManifestBump.Proofs.Bump.StepOutput
import ManifestBump.Proofs.Config.Decode
import ManifestBump.Proofs.Config.Discovery
import ManifestBump.Proofs.Config.Fields
import ManifestBump.Proofs.Config.Layers
import ManifestBump.Proofs.Document
import ManifestBump.Proofs.Event
import ManifestBump.Proofs.Except
import ManifestBump.Proofs.Files
import ManifestBump.Proofs.Json.Bare
import ManifestBump.Proofs.Json.Bytes
import ManifestBump.Proofs.Json.Edit
import ManifestBump.Proofs.Json.Idle
import ManifestBump.Proofs.Json.Index
import ManifestBump.Proofs.Json.Key
import ManifestBump.Proofs.Json.Literal
import ManifestBump.Proofs.Json.Lookup
import ManifestBump.Proofs.Json.Moved
import ManifestBump.Proofs.Json.Nesting
import ManifestBump.Proofs.Json.Others
import ManifestBump.Proofs.Json.Outline
import ManifestBump.Proofs.Json.Pieces
import ManifestBump.Proofs.Json.Quoted
import ManifestBump.Proofs.Json.Rounds
import ManifestBump.Proofs.Json.Scope
import ManifestBump.Proofs.Json.Strict
import ManifestBump.Proofs.Json.Tree
import ManifestBump.Proofs.Json.WholeKey
import ManifestBump.Proofs.Json.WholeString
import ManifestBump.Proofs.KeyPath
import ManifestBump.Proofs.Label
import ManifestBump.Proofs.Manifest.Bare
import ManifestBump.Proofs.Manifest.Calls
import ManifestBump.Proofs.Manifest.Edit
import ManifestBump.Proofs.Manifest.Lens
import ManifestBump.Proofs.Manifest.Others
import ManifestBump.Proofs.Manifest.Rounds
import ManifestBump.Proofs.Notation.Json.Lexeme
import ManifestBump.Proofs.Notation.Json.Ordered
import ManifestBump.Proofs.Notation.Json.Record
import ManifestBump.Proofs.Notation.Json.Skip
import ManifestBump.Proofs.Notation.Toml.Ordered
import ManifestBump.Proofs.Notation.Yaml.Ordered
import ManifestBump.Proofs.Podspec.Delimited
import ManifestBump.Proofs.Podspec.Edit
import ManifestBump.Proofs.Podspec.First
import ManifestBump.Proofs.Podspec.Header
import ManifestBump.Proofs.Podspec.Rounds
import ManifestBump.Proofs.Remote.LatestTag
import ManifestBump.Proofs.Remote.Persist
import ManifestBump.Proofs.Template
import ManifestBump.Proofs.Text.Bisect
import ManifestBump.Proofs.Text.Body
import ManifestBump.Proofs.Text.Bytes
import ManifestBump.Proofs.Text.Cut
import ManifestBump.Proofs.Text.Edit
import ManifestBump.Proofs.Text.Lines
import ManifestBump.Proofs.Text.NaturalOrder
import ManifestBump.Proofs.Text.Numeral
import ManifestBump.Proofs.Text.Rounds
import ManifestBump.Proofs.Text.Search
import ManifestBump.Proofs.Text.Span
import ManifestBump.Proofs.Version.Exchange
import ManifestBump.Proofs.Version.Grammar
import ManifestBump.Proofs.Version.Names
import ManifestBump.Proofs.Version.Precedence
import ManifestBump.Proofs.Version.RoundTrip
import ManifestBump.Proofs.Version.Text
import ManifestBump.Proofs.Yaml.Bare
import ManifestBump.Proofs.Yaml.Block
import ManifestBump.Proofs.Yaml.Descent
import ManifestBump.Proofs.Yaml.Edit
import ManifestBump.Proofs.Yaml.Exchange
import ManifestBump.Proofs.Yaml.Key
import ManifestBump.Proofs.Yaml.Line
import ManifestBump.Proofs.Yaml.Local
import ManifestBump.Proofs.Yaml.Lookup
import ManifestBump.Proofs.Yaml.Mapping
import ManifestBump.Proofs.Yaml.Others
import ManifestBump.Proofs.Yaml.Quoted
import ManifestBump.Proofs.Yaml.Rounds
import ManifestBump.Proofs.Yaml.Row
import ManifestBump.Proofs.Yaml.Scalar
import ManifestBump.Proofs.Yaml.Scope
import ManifestBump.Proofs.Yaml.Swap
import ManifestBump.Proofs.Yaml.Tree
import ManifestBump.Remote.Basic
import ManifestBump.Remote.Checkout
import ManifestBump.Repository.Basic
import ManifestBump.Repository.Commit
import ManifestBump.Repository.Revision
import ManifestBump.Template
import ManifestBump.Text.Basic
import ManifestBump.Text.Blank
import ManifestBump.Text.Lossy
import ManifestBump.Text.NaturalOrder
import ManifestBump.Text.Printable
import ManifestBump.Text.Quoted
import ManifestBump.Text.Search
import ManifestBump.Text.Span
import ManifestBump.Text.Word
import ManifestBump.Version.Basic
import ManifestBump.Version.Message
import ManifestBump.Version.Reader
