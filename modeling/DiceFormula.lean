import DiceFormula.Expr.WellFormed
import DiceFormula.Main
import DiceFormula.Outcome.Follows
import DiceFormula.Outcome.Mirrors
import DiceFormula.Outcome.SelectionLaws
import DiceFormula.Phrase.Grammar
import DiceFormula.Phrase.Legal
import DiceFormula.Resume
import DiceFormula.Token.Lexeme
import DiceFormula.Proofs.Grammar
import DiceFormula.Proofs.Decimal
import DiceFormula.Proofs.Lexing
import DiceFormula.Proofs.Lexemes
import DiceFormula.Proofs.WellFormed
import DiceFormula.Proofs.Spelling
import DiceFormula.Proofs.Meaning
import DiceFormula.Proofs.RoundTrip
import DiceFormula.Proofs.Acceptance
import DiceFormula.Proofs.Arithmetic
import DiceFormula.Proofs.Dice
import DiceFormula.Proofs.Selection
import DiceFormula.Proofs.Evaluation
import DiceFormula.Proofs.Exactness
import DiceFormula.Proofs.Mirrors
import DiceFormula.Proofs.Draws
import DiceFormula.Proofs.Unambiguous
import DiceFormula.Proofs.Traces
import DiceFormula.Proofs.Report
import DiceFormula.Proofs.Faults
import DiceFormula.Proofs.Load
import DiceFormula.Proofs.LongestMatch
import DiceFormula.Proofs.Grammar.Viable
import DiceFormula.Proofs.Ranking
import DiceFormula.CommandLine.Pieces
import DiceFormula.Proofs.Options
import DiceFormula.Proofs.OneRoll
import DiceFormula.CommandLine.Session
import DiceFormula.Proofs.Session
import DiceFormula.Proofs.Joining
import DiceFormula.Proofs.Moved
import DiceFormula.Proofs.Composition
import DiceFormula.Proofs.SelectionLaws
import DiceFormula.Outcome.Blocks
import DiceFormula.Proofs.Blocks
import DiceFormula.Expr.Stages
import DiceFormula.Proofs.Stages
import DiceFormula.Phrase.Relabel
import DiceFormula.Proofs.Relabel
import DiceFormula.Proofs.Resumption
import DiceFormula.Proofs.Gaps
import DiceFormula.Proofs.LetterCase
import DiceFormula.Proofs.Rescanning
import DiceFormula.Proofs.Values
import DiceFormula.Source.Words
import DiceFormula.Proofs.Uniform
import DiceFormula.CommandLine.Answers
import DiceFormula.Proofs.Answers
