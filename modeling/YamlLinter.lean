import YamlLinter.Main
import YamlLinter.Cli.Dump
import YamlLinter.Proofs.SimpleKeys
import YamlLinter.Proofs.Positions
import YamlLinter.Proofs.Grammar
import YamlLinter.Proofs.Indentation.Litter
import YamlLinter.Proofs.Indentation.Stack
import YamlLinter.Proofs.Indentation.Step
import YamlLinter.Proofs.Indentation.Balance
import YamlLinter.Proofs.Indentation.Neighbours
import YamlLinter.Proofs.Canonical.Tree
import YamlLinter.Proofs.Eager
import YamlLinter.Proofs.Canonical.Lexeme
import YamlLinter.Proofs.Canonical.Scan
import YamlLinter.Proofs.Canonical.Silent
import YamlLinter.Proofs.Canonical.Indent
import YamlLinter.Proofs.Canonical.Verdict
import YamlLinter.Proofs.Indentation.Full
import YamlLinter.Proofs.Through
import YamlLinter.Proofs.Coverage
import YamlLinter.Proofs.Adjacency
import YamlLinter.Proofs.Nesting
import YamlLinter.Proofs.Conservation
import YamlLinter.Proofs.Directives
import YamlLinter.Proofs.SkippedLine
import YamlLinter.Proofs.Indentation.Reachable
import YamlLinter.Proofs.Indentation.Pairs
import YamlLinter.Proofs.Indentation.Regular
import YamlLinter.Proofs.Indentation.Consistent
import YamlLinter.Proofs.Tandem.Walk
import YamlLinter.Proofs.Tandem.Lexeme
import YamlLinter.Proofs.Tandem.Scan
import YamlLinter.Proofs.Tandem.Rules
import YamlLinter.Proofs.Tandem.Sources
import YamlLinter.Proofs.LineEndings
import YamlLinter.Proofs.ByteOrderMark
import YamlLinter.Proofs.Independence
import YamlLinter.Proofs.Canonical.RoundTrip
import YamlLinter.Proofs.Documents.Walk
import YamlLinter.Proofs.Documents.Lexeme
import YamlLinter.Proofs.Documents.Scan
import YamlLinter.Proofs.Documents.Compose
import YamlLinter.Proofs.Progress
import YamlLinter.Proofs.AnchorUse
import YamlLinter.Proofs.RepeatedKeys
import YamlLinter.Proofs.Places
import YamlLinter.Proofs.SortedProblems
import YamlLinter.Proofs.SyntaxProblem
import YamlLinter.Proofs.Indentation.Detected
import YamlLinter.Proofs.Indentation.FirstInLine
import YamlLinter.Proofs.Spelling.Lexeme
import YamlLinter.Proofs.Spelling.Scan
import YamlLinter.Proofs.Scalars.Alone
import YamlLinter.Proofs.Scalars.Escapes
import YamlLinter.Proofs.Scalars.Quoted
import YamlLinter.Proofs.Scalars.Block
import YamlLinter.Proofs.DirectiveGrammar
import YamlLinter.Proofs.LastDirective
import YamlLinter.Proofs.MarkedCharacter
import YamlLinter.Proofs.ElementOrder
import YamlLinter.Proofs.Configuration.Acceptance
import YamlLinter.Proofs.PhysicalLines
import YamlLinter.Proofs.Indentation.ContinuationLines
