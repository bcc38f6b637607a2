import CPreprocessor.Main
import CPreprocessor.Proofs.Expansion.Machine
import CPreprocessor.Proofs.Expansion.Termination
import CPreprocessor.Proofs.Expansion.Origins
import CPreprocessor.Proofs.Expansion.Strings
import CPreprocessor.Proofs.Expansion.Unfolding
import CPreprocessor.Proofs.Expansion.Chains
import CPreprocessor.Proofs.Expansion.Hashes
import CPreprocessor.Proofs.Expansion.Arguments
import CPreprocessor.Proofs.Condition.Literal
import CPreprocessor.Proofs.Condition.Meaning
import CPreprocessor.Proofs.Condition.Arithmetic
import CPreprocessor.Proofs.Condition.Printing
import CPreprocessor.Proofs.Condition.Reading
import CPreprocessor.Proofs.Condition.Acceptance
import CPreprocessor.Proofs.Condition.Evaluation
import CPreprocessor.Proofs.Condition.Correctness
import CPreprocessor.Proofs.Condition.Liveness
import CPreprocessor.Proofs.Lexing.Runs
import CPreprocessor.Proofs.Lexing.Number
import CPreprocessor.Proofs.Lexing.Literal
import CPreprocessor.Proofs.Lexing.Lexeme
import CPreprocessor.Proofs.Lexing.Gap
import CPreprocessor.Proofs.Lexing.Words
import CPreprocessor.Proofs.Lexing.Adjacency
import CPreprocessor.Proofs.Source.Plain
import CPreprocessor.Proofs.Lexing.Join
import CPreprocessor.Proofs.Directive.Conditional
import CPreprocessor.Proofs.Reading.Branches
import CPreprocessor.Proofs.Reading.Selection
import CPreprocessor.Proofs.Places.Lexer
import CPreprocessor.Proofs.Guard.Verdict
import CPreprocessor.Proofs.Directive.Layers
import CPreprocessor.Proofs.Guard.Consistent
import CPreprocessor.Proofs.Guard.Reread
import CPreprocessor.Proofs.Guard.Readers
import CPreprocessor.Proofs.Run.Invariant
import CPreprocessor.Proofs.Guard.Include
import CPreprocessor.Proofs.Places.Expansion
import CPreprocessor.Proofs.Places.Condition
import CPreprocessor.Proofs.Places.Session
import CPreprocessor.Proofs.Places.Directive
import CPreprocessor.Proofs.Places.Reader
import CPreprocessor.Proofs.Run.Passing
import CPreprocessor.Proofs.Include.Location
import CPreprocessor.Proofs.Run.Twins
import CPreprocessor.Proofs.Run.Journals
import CPreprocessor.Proofs.Run.Collecting
import CPreprocessor.Proofs.Run.Operators
import CPreprocessor.Proofs.Guard.Skipping
import CPreprocessor.Proofs.Run.Moves
import CPreprocessor.Proofs.Lexing.Stops
import CPreprocessor.Proofs.Source.Lines
import CPreprocessor.Proofs.Reading.Parts
import CPreprocessor.Proofs.Reading.Nested
import CPreprocessor.Proofs.Reading.Exchange
import CPreprocessor.Proofs.Include.Nesting
import CPreprocessor.Proofs.Include.Separation
import CPreprocessor.Proofs.Run.FailFast
import CPreprocessor.Proofs.Run.Predefinitions
import CPreprocessor.Proofs.Run.DeadLines
import CPreprocessor.Proofs.Directive.Setups
import CPreprocessor.Proofs.Run.Markers
import CPreprocessor.Proofs.Run.Truncation
import CPreprocessor.Proofs.Run.Shape
import CPreprocessor.Proofs.Lexing.Lines
import CPreprocessor.Proofs.Run.LineStarts
import CPreprocessor.Proofs.Lexing.Alone
import CPreprocessor.Proofs.Expansion.Stringizing
import CPreprocessor.Proofs.Run.PassedLines
import CPreprocessor.Proofs.Run.Provenance
import CPreprocessor.Proofs.Include.Lookup
import CPreprocessor.Proofs.Include.Recency
import CPreprocessor.Proofs.Include.Names
import CPreprocessor.Proofs.Directive.Parameters
import CPreprocessor.Proofs.Directive.Brackets
import CPreprocessor.Proofs.Reading.Entries
import CPreprocessor.Proofs.Run.Preamble
import CPreprocessor.Proofs.Run.Playing
import CPreprocessor.Proofs.Run.Including
import CPreprocessor.Proofs.Source.Offsets
import CPreprocessor.Proofs.Source.Utf16
import CPreprocessor.Proofs.Lexing.Requests
import CPreprocessor.Proofs.Number.Grammar
import CPreprocessor.Proofs.Number.Plain
import CPreprocessor.Proofs.Number.Separators
import CPreprocessor.Proofs.Condition.Numbers
import CPreprocessor.Proofs.Lexing.Feeds
import CPreprocessor.Proofs.Lexing.Boundary
import CPreprocessor.Proofs.Lexing.Indices
import CPreprocessor.Proofs.Run.LineChanges
import CPreprocessor.Proofs.Condition.Correspondence
import CPreprocessor.Proofs.Condition.Failures
import CPreprocessor.Proofs.Condition.Spellings
import CPreprocessor.Proofs.Lexing.Sequences
import CPreprocessor.Proofs.Condition.Escapes
import CPreprocessor.Proofs.Directive.Questions
import CPreprocessor.Proofs.Directive.Defined
import CPreprocessor.Proofs.Run.Liveness
import CPreprocessor.Proofs.CommandLine.Sizes
