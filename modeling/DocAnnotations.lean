import DocAnnotations.AliasTable
import DocAnnotations.Argument
import DocAnnotations.Argument.Meaning
import DocAnnotations.Argument.Term
import DocAnnotations.Argument.Token
import DocAnnotations.Binary64
import DocAnnotations.Comment
import DocAnnotations.Comment.Arguments
import DocAnnotations.Comment.Decoration
import DocAnnotations.Declaration
import DocAnnotations.Entries
import DocAnnotations.Factory
import DocAnnotations.Factory.Catalogue
import DocAnnotations.Factory.Model
import DocAnnotations.Factory.Record
import DocAnnotations.Files.Glob
import DocAnnotations.Files.Path
import DocAnnotations.Files.Tree
import DocAnnotations.Fragment
import DocAnnotations.Generic
import DocAnnotations.Import
import DocAnnotations.Import.Preamble
import DocAnnotations.Import.Statement
import DocAnnotations.Import.Token
import DocAnnotations.Json
import DocAnnotations.Json.Text
import DocAnnotations.NameScope
import DocAnnotations.Numeral
import DocAnnotations.Pieces
import DocAnnotations.Proofs.AliasTable
import DocAnnotations.Proofs.AliasTable.Precedence
import DocAnnotations.Proofs.Argument.Accepted
import DocAnnotations.Proofs.Argument.Clear
import DocAnnotations.Proofs.Argument.Composed
import DocAnnotations.Proofs.Argument.Digits
import DocAnnotations.Proofs.Argument.Emitted
import DocAnnotations.Proofs.Argument.Grammar
import DocAnnotations.Proofs.Argument.Json
import DocAnnotations.Proofs.Argument.Normalize
import DocAnnotations.Proofs.Argument.Numbered
import DocAnnotations.Proofs.Argument.Pairing
import DocAnnotations.Proofs.Argument.Parentheses
import DocAnnotations.Proofs.Argument.Part
import DocAnnotations.Proofs.Argument.Print
import DocAnnotations.Proofs.Argument.RoundTrip
import DocAnnotations.Proofs.Argument.Scalars
import DocAnnotations.Proofs.Argument.Sketch
import DocAnnotations.Proofs.Argument.Spacing
import DocAnnotations.Proofs.Argument.Spelling
import DocAnnotations.Proofs.Argument.Structure
import DocAnnotations.Proofs.Argument.Written
import DocAnnotations.Proofs.Comment.Agreement
import DocAnnotations.Proofs.Comment.Appended
import DocAnnotations.Proofs.Comment.Clear
import DocAnnotations.Proofs.Comment.Decoration
import DocAnnotations.Proofs.Comment.Docblock
import DocAnnotations.Proofs.Comment.Occurrence
import DocAnnotations.Proofs.Comment.Parts
import DocAnnotations.Proofs.Comment.Plain
import DocAnnotations.Proofs.Comment.Scan
import DocAnnotations.Proofs.Comment.Slices
import DocAnnotations.Proofs.Comment.Woven
import DocAnnotations.Proofs.Comment.Written
import DocAnnotations.Proofs.Entries
import DocAnnotations.Proofs.Factory.Assignment
import DocAnnotations.Proofs.Factory.Faithful
import DocAnnotations.Proofs.Generic
import DocAnnotations.Proofs.Import.Aside
import DocAnnotations.Proofs.Import.Body
import DocAnnotations.Proofs.Import.ClassesOnly
import DocAnnotations.Proofs.Import.Declaration
import DocAnnotations.Proofs.Import.Directive
import DocAnnotations.Proofs.Import.Ending
import DocAnnotations.Proofs.Import.EntryForm
import DocAnnotations.Proofs.Import.Grouped
import DocAnnotations.Proofs.Import.Insertion
import DocAnnotations.Proofs.Import.Layout
import DocAnnotations.Proofs.Import.Markup
import DocAnnotations.Proofs.Import.Name
import DocAnnotations.Proofs.Import.Preamble
import DocAnnotations.Proofs.Import.Reading
import DocAnnotations.Proofs.Import.Statements
import DocAnnotations.Proofs.Import.Table
import DocAnnotations.Proofs.Import.Unbalanced
import DocAnnotations.Proofs.Import.Written
import DocAnnotations.Proofs.Json.Escape
import DocAnnotations.Proofs.Json.Grammar
import DocAnnotations.Proofs.Json.Number
import DocAnnotations.Proofs.Json.Text
import DocAnnotations.Proofs.Json.Value
import DocAnnotations.Proofs.Mention
import DocAnnotations.Proofs.Numeral
import DocAnnotations.Proofs.Reader.Answer
import DocAnnotations.Proofs.Reader.Cache
import DocAnnotations.Proofs.Reader.Coherence
import DocAnnotations.Proofs.Reader.Enumeration
import DocAnnotations.Proofs.Reader.Flat
import DocAnnotations.Proofs.Reader.Grouping
import DocAnnotations.Proofs.Reader.Independence
import DocAnnotations.Proofs.Reader.Inheritance
import DocAnnotations.Proofs.Reader.Leads
import DocAnnotations.Proofs.Reader.LookUp
import DocAnnotations.Proofs.Reader.Native
import DocAnnotations.Proofs.Reader.Origin
import DocAnnotations.Proofs.Reader.OtherName
import DocAnnotations.Proofs.Reader.Repeat
import DocAnnotations.Proofs.Reader.Request
import DocAnnotations.Proofs.Reader.Scope
import DocAnnotations.Proofs.Reader.Settled
import DocAnnotations.Proofs.Reader.Shield
import DocAnnotations.Proofs.Reader.Soundness
import DocAnnotations.Proofs.Registry
import DocAnnotations.Proofs.Resolver.Conceal
import DocAnnotations.Proofs.Resolver.Failure
import DocAnnotations.Proofs.Resolver.Fields
import DocAnnotations.Proofs.Resolver.Imported
import DocAnnotations.Proofs.Resolver.Kept
import DocAnnotations.Proofs.Resolver.Literal
import DocAnnotations.Proofs.Resolver.Log
import DocAnnotations.Proofs.Resolver.Nested
import DocAnnotations.Proofs.Resolver.Order
import DocAnnotations.Proofs.Resolver.Origin
import DocAnnotations.Proofs.Resolver.Overrun
import DocAnnotations.Proofs.Resolver.Positional
import DocAnnotations.Proofs.Resolver.Record
import DocAnnotations.Proofs.Resolver.Required
import DocAnnotations.Proofs.Resolver.Tree
import DocAnnotations.Proofs.Run
import DocAnnotations.Proofs.Schema
import DocAnnotations.Proofs.Source.Arguments
import DocAnnotations.Proofs.Source.Constant
import DocAnnotations.Proofs.Source.Expression
import DocAnnotations.Proofs.Source.Literal
import DocAnnotations.Proofs.Source.Scope
import DocAnnotations.Proofs.SourceIndex
import DocAnnotations.QualifiedName
import DocAnnotations.ReadError
import DocAnnotations.Reader
import DocAnnotations.Reader.Grouping
import DocAnnotations.Registry
import DocAnnotations.Resolver
import DocAnnotations.Resolver.Hydration
import DocAnnotations.Schema
import DocAnnotations.Settings
import DocAnnotations.Source.Class
import DocAnnotations.Source.Expression
import DocAnnotations.Source.Outline
import DocAnnotations.Source.Parser
import DocAnnotations.Source.Parser.Expression
import DocAnnotations.Source.Parser.Lexeme
import DocAnnotations.Source.Parser.Statement
import DocAnnotations.Source.Parser.Token
import DocAnnotations.Source.Parser.Tree
import DocAnnotations.Source.Syntax
import DocAnnotations.SourceIndex
import DocAnnotations.Text.Blank
import DocAnnotations.Text.Digit
import DocAnnotations.Text.Front
import DocAnnotations.Text.Hex
import DocAnnotations.Text.Interval
import DocAnnotations.Text.Letter
import DocAnnotations.Text.Lines
import DocAnnotations.Text.Lower
import DocAnnotations.Text.Printable
import DocAnnotations.Text.Quoted
import DocAnnotations.Text.Utf8
import DocAnnotations.Value
import DocAnnotations.Vocabulary
