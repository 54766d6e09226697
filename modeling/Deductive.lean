import Deductive.CommandLine
import Deductive.CommandLine.Arguments
import Deductive.CommandLine.Files
import Deductive.Decimal
import Deductive.Decimal.Shortest
import Deductive.Declaration
import Deductive.Declaration.Parser
import Deductive.Declaration.Reader
import Deductive.Diagnostic
import Deductive.Diagnostic.Checks
import Deductive.Expr
import Deductive.Expr.Matching
import Deductive.Formula.Reader
import Deductive.Formula.Token
import Deductive.Formula.Writer
import Deductive.Json
import Deductive.Json.Display
import Deductive.Json.Reader
import Deductive.Json.Writer
import Deductive.Library
import Deductive.Log
import Deductive.Main
import Deductive.Name
import Deductive.ParseError
import Deductive.Phrase
import Deductive.Position
import Deductive.Proof
import Deductive.Proof.Check
import Deductive.Proof.Context
import Deductive.Proof.Failure
import Deductive.Proof.Reader
import Deductive.Proof.Trace
import Deductive.Proof.Verdict
import Deductive.Registry
import Deductive.Report
import Deductive.Settings
import Deductive.Signature
import Deductive.SortDecl
import Deductive.StringSet
import Deductive.Text.Classes
import Deductive.Text.Quoted
import Deductive.Text.Identifier
import Deductive.Text.Integer
import Deductive.Text.Upper
import Deductive.Theory
import Deductive.Theory.Demands
import Deductive.Theory.OfJson
import Deductive.Theory.ToJson
import Deductive.Theory.Writer
import Deductive.Token
import Deductive.Token.Reader
import Deductive.Truth
import Deductive.Proofs.Registry
import Deductive.Proofs.Substitution
import Deductive.Proofs.Matching
import Deductive.Proofs.Sorting
import Deductive.Proofs.Admissible
import Deductive.Proofs.Composition
import Deductive.Proofs.Rounds
import Deductive.Proofs.Steps
import Deductive.Proofs.WellFormed
import Deductive.Proofs.Context
import Deductive.Proofs.GoalAgreement
import Deductive.Proofs.Derivation
import Deductive.Proofs.Expansion
import Deductive.Proofs.DistinctVariables
import Deductive.Proofs.Lawful
import Deductive.Proofs.Statements
import Deductive.Proofs.Stating
import Deductive.Proofs.Grammar
import Deductive.Proofs.Reading
import Deductive.Proofs.Cutting
import Deductive.Proofs.Joining
import Deductive.Proofs.Printing
import Deductive.Proofs.Lexing
import Deductive.Proofs.Spelling
import Deductive.Proofs.TokenReading
import Deductive.Proofs.Rereading
import Deductive.Proofs.Growing
import Deductive.Proofs.Parsing
import Deductive.Proofs.Rendering
import Deductive.Proofs.Completeness
import Deductive.Proofs.Reordering
import Deductive.Proofs.Portable
import Deductive.Proofs.Lockstep
import Deductive.Proofs.Replacement
import Deductive.Proofs.Renaming
import Deductive.Proofs.AlphaInvariance
import Deductive.Proofs.Retrying
import Deductive.Proofs.Appending
import Deductive.Proofs.Digits
import Deductive.Proofs.JsonStrings
import Deductive.Proofs.JsonText
import Deductive.Proofs.JsonDelimiters
import Deductive.Proofs.JsonTheory
import Deductive.Proofs.Endings
import Deductive.Proofs.Places
import Deductive.Proofs.Reported
import Deductive.Proofs.Declaring
import Deductive.Proofs.Definitions
import Deductive.Proofs.Flags
import Deductive.Proofs.Parentheses
import Deductive.Proofs.Texts
import Deductive.Proofs.Shown
import Deductive.Proofs.Decoding
import Deductive.Proofs.Exits
import Deductive.Proofs.SortAgreement
import Deductive.Proofs.Accepting
import Deductive.Proofs.ProofGrammar
import Deductive.Proofs.Guarantees
import Deductive.Proofs.SubstitutionChecks
import Deductive.Proofs.Stopping
import Deductive.Proofs.Failures
import Deductive.Proofs.Findings
import Deductive.Proofs.Lookups
import Deductive.Proofs.NestingLimit
import Deductive.Proofs.LaterAssertions
import Deductive.Proofs.Partition
