import ChainScript.Number.Decimal
import ChainScript.Number.Arithmetic
import ChainScript.Text.Quoted
import ChainScript.Token.Scanner
import ChainScript.Grammar.Table
import ChainScript.Tree.Parse
import ChainScript.Tree.Arena
import ChainScript.Tree.Machine
import ChainScript.Expr.Text
import ChainScript.Expr.OfTree
import ChainScript.Script
import ChainScript.Value.Text
import ChainScript.Scope
import ChainScript.Memo.Key
import ChainScript.Memo.Trie
import ChainScript.World
import ChainScript.Proc
import ChainScript.Eval.Expr
import ChainScript.Eval.Call
import ChainScript.Builtin
import ChainScript.Load
import ChainScript.Import
import ChainScript.Run
import ChainScript.Cli.Program
import ChainScript.Main
import ChainScript.Proofs.Grammar.Derivation
import ChainScript.Proofs.Grammar.Predict
import ChainScript.Proofs.Tree.Parse
import ChainScript.Proofs.Tree.Reading
import ChainScript.Proofs.Tree.Arena
import ChainScript.Proofs.Tree.Machine
import ChainScript.Proofs.Tree.Viable
import ChainScript.Proofs.Tree.Halting
import ChainScript.Proofs.Scope
import ChainScript.Proofs.Expr.Rendering
import ChainScript.Proofs.Proc.Ensures
import ChainScript.Proofs.Proc.Same
import ChainScript.Proofs.Builtin
import ChainScript.Proofs.Eval.Call
import ChainScript.Proofs.Eval.Currying
import ChainScript.Proofs.Eval.Application
import ChainScript.Proofs.Eval.Scoping
import ChainScript.Proofs.Eval.Hygiene
import ChainScript.Proofs.Eval.Termination
import ChainScript.Proofs.Eval.Data
import ChainScript.Proofs.Eval.Entry
import ChainScript.Proofs.Eval.Stopping
import ChainScript.Proofs.Memo.Recall
import ChainScript.Proofs.Import
import ChainScript.Proofs.Memo.Machine
import ChainScript.Proofs.Token.Lexeme
import ChainScript.Proofs.Token.Scan
import ChainScript.Proofs.Tree.Down
import ChainScript.Proofs.Script
import ChainScript.Proofs.Expr.Shape
import ChainScript.Proofs.Link
import ChainScript.Proofs.Token.Layout
import ChainScript.Proofs.Proc.Confined
import ChainScript.Proofs.Eval.Confined
import ChainScript.Proofs.Eval.Moment
import ChainScript.Proofs.Eval.Frames
import ChainScript.Proofs.Token.Join
import ChainScript.Proofs.Token.Quoted
import ChainScript.Proofs.Token.Numeral
import ChainScript.Proofs.Token.Word
import ChainScript.Proofs.Token.Context
import ChainScript.Proofs.Eval.Chain
import ChainScript.Proofs.Proc.Forward
import ChainScript.Proofs.Builtin.Forward
import ChainScript.Proofs.Eval.Forward
import ChainScript.Proofs.Eval.Items
import ChainScript.Proofs.Builtin.Numeric
import ChainScript.Proofs.Value.Equal
import ChainScript.Proofs.Eval.Lookup
import ChainScript.Proofs.Eval.Partial
import ChainScript.Proofs.Eval.Switch
