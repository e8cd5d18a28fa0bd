import QuestScript.Bisection
import QuestScript.Command
import QuestScript.Command.Console
import QuestScript.Command.Run
import QuestScript.Config
import QuestScript.Config.Read
import QuestScript.Config.Toml
import QuestScript.Engine
import QuestScript.Error
import QuestScript.Expr.Builtin
import QuestScript.Expr.Cache
import QuestScript.Expr.Code
import QuestScript.Expr.Compile
import QuestScript.Expr.Function
import QuestScript.Expr.Op
import QuestScript.Expr.Token
import QuestScript.Host
import QuestScript.Line
import QuestScript.Line.Block
import QuestScript.Line.Keyword
import QuestScript.Line.Listing
import QuestScript.Line.Source
import QuestScript.Line.Statement
import QuestScript.Machine
import QuestScript.Machine.Assign
import QuestScript.Machine.Block
import QuestScript.Machine.Eval
import QuestScript.Machine.Statement
import QuestScript.Main
import QuestScript.Pattern
import QuestScript.Pattern.Cache
import QuestScript.Pattern.CharSet
import QuestScript.Pattern.Error
import QuestScript.Pattern.Node
import QuestScript.Pattern.Program
import QuestScript.Pattern.Property
import QuestScript.Pattern.Reader
import QuestScript.Pattern.Search
import QuestScript.Pattern.Tree
import QuestScript.Random
import QuestScript.Screen
import QuestScript.Span
import QuestScript.Text.Blank
import QuestScript.Text.Case
import QuestScript.Text.Category
import QuestScript.Text.Distance
import QuestScript.Text.Json
import QuestScript.Text.Literal
import QuestScript.Text.Offset
import QuestScript.Text.Part
import QuestScript.Text.Property
import QuestScript.Text.Quoted
import QuestScript.Text.Scan
import QuestScript.Text.Table
import QuestScript.Text.Template
import QuestScript.Value
import QuestScript.Value.Arithmetic
import QuestScript.Value.Number
import QuestScript.Variable
import QuestScript.Variable.Name
import QuestScript.Variable.Scope
import QuestScript.Variable.Store
import QuestScript.World
import QuestScript.Proofs.Discipline
import QuestScript.Proofs.Discipline.Eval
import QuestScript.Proofs.Discipline.Statement
import QuestScript.Proofs.Discipline.Block
import QuestScript.Proofs.Frame
import QuestScript.Proofs.Bindings
import QuestScript.Proofs.Store
import QuestScript.Proofs.Store.FailedWrite
import QuestScript.Proofs.Store.Keys
import QuestScript.Proofs.Store.Limit
import QuestScript.Proofs.Likeness
import QuestScript.Proofs.Expr.Piece
import QuestScript.Proofs.Expr.Compile
import QuestScript.Proofs.Expr.Depth
import QuestScript.Proofs.Expr.Heights
import QuestScript.Proofs.Expr.Waiting
import QuestScript.Proofs.Expr.Balance
import QuestScript.Proofs.Expr.Misread
import QuestScript.Proofs.Likeness.Eval
import QuestScript.Proofs.Likeness.Block
import QuestScript.Proofs.Likeness.Near
import QuestScript.Proofs.Random
import QuestScript.Proofs.Requests
import QuestScript.Proofs.ErrorLine
import QuestScript.Proofs.Reset
import QuestScript.Proofs.Expr.Literal
import QuestScript.Proofs.Ends
import QuestScript.Proofs.Nesting
import QuestScript.Proofs.Text.Literal
import QuestScript.Proofs.Text.Standing
import QuestScript.Proofs.Text.Words
import QuestScript.Proofs.Expr.Lexeme
import QuestScript.Proofs.Expr.Separator
import QuestScript.Proofs.Expr.Display
import QuestScript.Proofs.World.Registry
import QuestScript.Proofs.World
import QuestScript.Proofs.Line.Source
import QuestScript.Proofs.Line.Append
import QuestScript.Proofs.Bisection
import QuestScript.Proofs.Line.Keyword
import QuestScript.Proofs.Line.Statement
import QuestScript.Proofs.Line.Spans
import QuestScript.Proofs.Line.Bytes
import QuestScript.Proofs.Line.Checked
import QuestScript.Proofs.Screen.Scene
import QuestScript.Proofs.Screen.Written
import QuestScript.Proofs.Screen.Replay
import QuestScript.Proofs.Screen.Law
import QuestScript.Proofs.Screen.Tidy
import QuestScript.Proofs.Screen.Sound
import QuestScript.Proofs.Screen.Flags
import QuestScript.Proofs.Screen.Rebuild
import QuestScript.Proofs.Store.ReadWrite
import QuestScript.Proofs.Block.Range
import QuestScript.Proofs.Block.Conditional
import QuestScript.Proofs.Block.Counting
import QuestScript.Proofs.Line.Shift
import QuestScript.Proofs.Line.ElseIf
import QuestScript.Proofs.Block.ElseIf
import QuestScript.Proofs.Line.Inline
import QuestScript.Proofs.Block.Inline
import QuestScript.Proofs.Block.Control
import QuestScript.Proofs.Block.Entering
import QuestScript.Proofs.Block.Jump
import QuestScript.Proofs.Template
import QuestScript.Proofs.Target
import QuestScript.Proofs.Text.Nest
import QuestScript.Proofs.Expr.Above
import QuestScript.Proofs.Expr.Nested
import QuestScript.Proofs.Expr.Placed
import QuestScript.Proofs.Expr.Outline
import QuestScript.Proofs.Expr.Bracketed
import QuestScript.Proofs.Expr.Indexed
import QuestScript.Proofs.Likeness.Recached
import QuestScript.Proofs.Subscript
import QuestScript.Proofs.Value.Order
import QuestScript.Proofs.Text.Trim
import QuestScript.Proofs.Value.Number
import QuestScript.Proofs.Random.Checked
import QuestScript.Proofs.Value.Extreme
import QuestScript.Proofs.Text.Find
import QuestScript.Proofs.Text.Upper
import QuestScript.Proofs.Value.Key
import QuestScript.Proofs.Store.Reshape
import QuestScript.Proofs.Store.Unwind
import QuestScript.Proofs.Case.Name
import QuestScript.Proofs.Case.Token
import QuestScript.Proofs.Case.Compile
import QuestScript.Proofs.Case.Kept
import QuestScript.Proofs.Case.Eval
import QuestScript.Proofs.Case.Prepare
import QuestScript.Proofs.Pattern.Cache
import QuestScript.Proofs.Text.Distance
import QuestScript.Proofs.Block.Search
import QuestScript.Proofs.Line.Starts
import QuestScript.Proofs.World.Closing
import QuestScript.Proofs.Expr.Counts
import QuestScript.Proofs.Expr.Visits
import QuestScript.Proofs.Expr.Identifier
import QuestScript.Proofs.Ends.Statement
import QuestScript.Proofs.Block.Forward
import QuestScript.Proofs.Block.Straight
