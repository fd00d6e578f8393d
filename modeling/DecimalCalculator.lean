import DecimalCalculator.Assignment
import DecimalCalculator.Bindings
import DecimalCalculator.Calculator
import DecimalCalculator.Command
import DecimalCalculator.Decimal.Basic
import DecimalCalculator.Decimal.Digits
import DecimalCalculator.Decimal.Error
import DecimalCalculator.Decimal.Literal
import DecimalCalculator.Decimal.Power
import DecimalCalculator.Decimal.Printer
import DecimalCalculator.Decimal.Quotient
import DecimalCalculator.LineKind
import DecimalCalculator.Log
import DecimalCalculator.Main
import DecimalCalculator.Operator
import DecimalCalculator.Options
import DecimalCalculator.Postfix.Conversion
import DecimalCalculator.Postfix.Evaluation
import DecimalCalculator.Postfix.Node
import DecimalCalculator.Program
import DecimalCalculator.Rejection
import DecimalCalculator.Reported
import DecimalCalculator.Session.Script
import DecimalCalculator.Session.Source
import DecimalCalculator.Text.Blank
import DecimalCalculator.Text.Utf8
import DecimalCalculator.Token
import DecimalCalculator.Token.Scan
import DecimalCalculator.Token.Signs
import DecimalCalculator.Proofs.Expr
import DecimalCalculator.Proofs.Grammar
import DecimalCalculator.Proofs.Conversion
import DecimalCalculator.Proofs.Evaluation
import DecimalCalculator.Proofs.Infix
import DecimalCalculator.Proofs.Decimal.Rational
import DecimalCalculator.Proofs.Exactness
import DecimalCalculator.Proofs.Assignment
import DecimalCalculator.Proofs.History
import DecimalCalculator.Proofs.Decimal.Plain
import DecimalCalculator.Proofs.Token.Lexemes
import DecimalCalculator.Proofs.Token.Single
import DecimalCalculator.Proofs.Listing
import DecimalCalculator.Proofs.Token.Origin
import DecimalCalculator.Proofs.Redisplay
import DecimalCalculator.Proofs.Session.Lines
import DecimalCalculator.Proofs.Session.Dialogue
import DecimalCalculator.Proofs.Session.Faults
import DecimalCalculator.Proofs.Causes
import DecimalCalculator.Proofs.Recoverable
import DecimalCalculator.Proofs.Dispatch
import DecimalCalculator.Proofs.Decimal.Magnitude
import DecimalCalculator.Proofs.ScaleBound
import DecimalCalculator.Proofs.NaturalScale
import DecimalCalculator.Proofs.Decimal.Quotient
import DecimalCalculator.Proofs.Decimal.Squaring
import DecimalCalculator.Proofs.Decimal.Power
import DecimalCalculator.Proofs.Postorder
import DecimalCalculator.Proofs.Acceptance
import DecimalCalculator.Proofs.Conservation
import DecimalCalculator.Proofs.Token.Rendering
import DecimalCalculator.Proofs.Text.Utf8
import DecimalCalculator.Proofs.Text.Lossy
import DecimalCalculator.Proofs.Session.Decoding
import DecimalCalculator.Proofs.Foreign
import DecimalCalculator.Proofs.Literals
import DecimalCalculator.Proofs.Locality
import DecimalCalculator.Proofs.Yard
import DecimalCalculator.Proofs.Token.Segments
import DecimalCalculator.Proofs.Token.Scanner
