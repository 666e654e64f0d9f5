import SchemaEmbed.Binary64
import SchemaEmbed.CommandLine
import SchemaEmbed.CommandLine.Help
import SchemaEmbed.Decimal.Layout
import SchemaEmbed.Decimal.Shortest
import SchemaEmbed.Document
import SchemaEmbed.Error
import SchemaEmbed.FileSystem
import SchemaEmbed.FileSystem.Listing
import SchemaEmbed.FileSystem.OsError
import SchemaEmbed.FileSystem.Shape
import SchemaEmbed.FileSystem.Writing
import SchemaEmbed.Format
import SchemaEmbed.Format.Builtin
import SchemaEmbed.Format.Registry
import SchemaEmbed.Json.Fault
import SchemaEmbed.Json.Numeral
import SchemaEmbed.Json.Printer
import SchemaEmbed.Json.Quoted
import SchemaEmbed.Json.Reader
import SchemaEmbed.Location
import SchemaEmbed.Log
import SchemaEmbed.Main
import SchemaEmbed.Options
import SchemaEmbed.Path
import SchemaEmbed.Program
import SchemaEmbed.Proofs.CommandLine.Arrangement
import SchemaEmbed.Proofs.CommandLine.Invocation
import SchemaEmbed.Proofs.CommandLine.Reading
import SchemaEmbed.Proofs.Decimal.Equality
import SchemaEmbed.Proofs.Decimal.Range
import SchemaEmbed.Proofs.Decimal.Rounding
import SchemaEmbed.Proofs.Decimal.Shortest
import SchemaEmbed.Proofs.Decimal.Text
import SchemaEmbed.Proofs.Entries
import SchemaEmbed.Proofs.FileSystem.AtomicWrite
import SchemaEmbed.Proofs.FileSystem.Listing
import SchemaEmbed.Proofs.FileSystem.Made
import SchemaEmbed.Proofs.FileSystem.Overwrite
import SchemaEmbed.Proofs.FileSystem.Reading
import SchemaEmbed.Proofs.FileSystem.Renewal
import SchemaEmbed.Proofs.FileSystem.Renumbered
import SchemaEmbed.Proofs.FileSystem.Replace
import SchemaEmbed.Proofs.FileSystem.Root
import SchemaEmbed.Proofs.FileSystem.Stages
import SchemaEmbed.Proofs.FileSystem.Tree
import SchemaEmbed.Proofs.FileSystem.Untorn
import SchemaEmbed.Proofs.FileSystem.Update
import SchemaEmbed.Proofs.FileSystem.Walk
import SchemaEmbed.Proofs.Format.Registry
import SchemaEmbed.Proofs.Json.Document
import SchemaEmbed.Proofs.Json.Grammar
import SchemaEmbed.Proofs.Json.Members
import SchemaEmbed.Proofs.Json.Numeral
import SchemaEmbed.Proofs.Json.NumeralEnd
import SchemaEmbed.Proofs.Json.NumeralText
import SchemaEmbed.Proofs.Json.Parsed
import SchemaEmbed.Proofs.Json.Quoted
import SchemaEmbed.Proofs.Json.Recognition
import SchemaEmbed.Proofs.Json.Reread
import SchemaEmbed.Proofs.Json.RoundTrip
import SchemaEmbed.Proofs.Json.Shape
import SchemaEmbed.Proofs.Location
import SchemaEmbed.Proofs.Outcome
import SchemaEmbed.Proofs.Path
import SchemaEmbed.Proofs.Reordered
import SchemaEmbed.Proofs.Run.Check
import SchemaEmbed.Proofs.Run.Detection
import SchemaEmbed.Proofs.Run.Embedding
import SchemaEmbed.Proofs.Run.Files
import SchemaEmbed.Proofs.Run.Json
import SchemaEmbed.Proofs.Run.Modes
import SchemaEmbed.Proofs.Run.Nulls
import SchemaEmbed.Proofs.Run.Order
import SchemaEmbed.Proofs.Run.Reread
import SchemaEmbed.Proofs.Run.Rewrite
import SchemaEmbed.Proofs.Run.Scalars
import SchemaEmbed.Proofs.Run.Settle
import SchemaEmbed.Proofs.Run.Stale
import SchemaEmbed.Proofs.Run.Steps
import SchemaEmbed.Proofs.Run.Store
import SchemaEmbed.Proofs.Run.Tags
import SchemaEmbed.Proofs.Run.WellFormed
import SchemaEmbed.Proofs.Toml.Arranged
import SchemaEmbed.Proofs.Toml.Assembly
import SchemaEmbed.Proofs.Toml.Bare
import SchemaEmbed.Proofs.Toml.Draft
import SchemaEmbed.Proofs.Toml.FirstLine
import SchemaEmbed.Proofs.Toml.FirstNull
import SchemaEmbed.Proofs.Toml.FirstOffence
import SchemaEmbed.Proofs.Toml.Inline
import SchemaEmbed.Proofs.Toml.Key
import SchemaEmbed.Proofs.Toml.Offence
import SchemaEmbed.Proofs.Toml.Order
import SchemaEmbed.Proofs.Toml.Parsed
import SchemaEmbed.Proofs.Toml.Quoted
import SchemaEmbed.Proofs.Toml.Recognition
import SchemaEmbed.Proofs.Toml.Reprinted
import SchemaEmbed.Proofs.Toml.RoundTrip
import SchemaEmbed.Proofs.Toml.Section
import SchemaEmbed.Proofs.Toml.WellFormed
import SchemaEmbed.Proofs.Value
import SchemaEmbed.Proofs.Yaml.Collisions
import SchemaEmbed.Proofs.Yaml.Distinct
import SchemaEmbed.Proofs.Yaml.DocumentOrder
import SchemaEmbed.Proofs.Yaml.FirstTag
import SchemaEmbed.Proofs.Yaml.Gap
import SchemaEmbed.Proofs.Yaml.Grammar
import SchemaEmbed.Proofs.Yaml.Indicator
import SchemaEmbed.Proofs.Yaml.Literal
import SchemaEmbed.Proofs.Yaml.Load
import SchemaEmbed.Proofs.Yaml.Marked
import SchemaEmbed.Proofs.Yaml.Merge
import SchemaEmbed.Proofs.Yaml.Number
import SchemaEmbed.Proofs.Yaml.Order
import SchemaEmbed.Proofs.Yaml.Plain
import SchemaEmbed.Proofs.Yaml.Quoted
import SchemaEmbed.Proofs.Yaml.Recognition
import SchemaEmbed.Proofs.Yaml.Resolved
import SchemaEmbed.Proofs.Yaml.RoundTrip
import SchemaEmbed.Proofs.Yaml.ScalarToken
import SchemaEmbed.Proofs.Yaml.Scalars
import SchemaEmbed.Proofs.Yaml.Scanner
import SchemaEmbed.Proofs.Yaml.Sources
import SchemaEmbed.Proofs.Yaml.Tags
import SchemaEmbed.Proofs.Yaml.Tokens
import SchemaEmbed.Proofs.Yaml.WellFormed
import SchemaEmbed.Run
import SchemaEmbed.Text.Blank
import SchemaEmbed.Toml.Bare
import SchemaEmbed.Toml.Char
import SchemaEmbed.Toml.DateTime
import SchemaEmbed.Toml.Document
import SchemaEmbed.Toml.Draft
import SchemaEmbed.Toml.Item
import SchemaEmbed.Toml.Printer
import SchemaEmbed.Toml.Quoted
import SchemaEmbed.Toml.Reader
import SchemaEmbed.Toml.Written
import SchemaEmbed.Value
import SchemaEmbed.Yaml.Alias
import SchemaEmbed.Yaml.Char
import SchemaEmbed.Yaml.Cursor
import SchemaEmbed.Yaml.Merge
import SchemaEmbed.Yaml.Node
import SchemaEmbed.Yaml.OwnTag
import SchemaEmbed.Yaml.Plain
import SchemaEmbed.Yaml.Printer
import SchemaEmbed.Yaml.Reader
import SchemaEmbed.Yaml.Token
import SchemaEmbed.Yaml.Token.Scalar
import SchemaEmbed.Yaml.Token.Stream
import SchemaEmbed.Yaml.Token.Tag
import SchemaEmbed.Yaml.Tree
import SchemaEmbed.Yaml.Written
