import MonkeyLang.Main
import MonkeyLang.Token.Scanner
import MonkeyLang.Value.Dump
import MonkeyLang.Proofs.Evaluation.Frame
import MonkeyLang.Proofs.Evaluation.Moment
import MonkeyLang.Proofs.Evaluation.Invariant
import MonkeyLang.Proofs.Evaluation.FirstError
import MonkeyLang.Proofs.Evaluation.Returns
import MonkeyLang.Proofs.Program.Reading
import MonkeyLang.Proofs.Program.Extent
import MonkeyLang.Proofs.Program.Acceptance
import MonkeyLang.Proofs.Program.Writing
import MonkeyLang.Proofs.Program.Readback
import MonkeyLang.Proofs.Program.Seam
import MonkeyLang.Proofs.Program.Lookahead
import MonkeyLang.Proofs.Program.Segments
import MonkeyLang.Proofs.Program.Completion
import MonkeyLang.Proofs.Program.Diagnosis
import MonkeyLang.Proofs.Session.Sequence
import MonkeyLang.Proofs.Evaluation.Tidy
import MonkeyLang.Proofs.Evaluation.Alike
import MonkeyLang.Proofs.Evaluation.Lexical
import MonkeyLang.Proofs.Session.Errors
import MonkeyLang.Proofs.Program.Printing
import MonkeyLang.Proofs.Program.Descent
import MonkeyLang.Proofs.Evaluation.Depth
import MonkeyLang.Proofs.Program.Climbing
import MonkeyLang.Proofs.Session.Prompting
import MonkeyLang.Proofs.Token.Layout
import MonkeyLang.Proofs.Evaluation.Arithmetic
import MonkeyLang.Proofs.Store.History
import MonkeyLang.Proofs.Session.Numerals
import MonkeyLang.Proofs.Store.Nesting
import MonkeyLang.Proofs.Token.Cursor
import MonkeyLang.Proofs.Token.Pulls
import MonkeyLang.Proofs.Program.Calls
import MonkeyLang.Proofs.Program.Ending
