import StyleTree.Token.Cursor
import StyleTree.HandleList.Pool
import StyleTree.Tree.Edit
import StyleTree.Log
import StyleTree.Main
import StyleTree.Proofs.Grammar.RoundTrip
import StyleTree.Proofs.HandleList.Lifetime
import StyleTree.Proofs.HandleList.Refinement
import StyleTree.Proofs.Print.Decoding
import StyleTree.Proofs.Print.Lookup
import StyleTree.Proofs.Print.WellFormed
import StyleTree.Proofs.Token.Tiling
import StyleTree.Proofs.Grammar.Atrule
import StyleTree.Proofs.Grammar.Sheet
import StyleTree.Proofs.Parse.Options
import StyleTree.Proofs.Grammar.Shape
import StyleTree.Proofs.Grammar.RuleShape
import StyleTree.Proofs.Parse.Shape
import StyleTree.Proofs.Grammar.Marks
import StyleTree.Proofs.Grammar.Placement
import StyleTree.Proofs.Grammar.RulePlacement
import StyleTree.Proofs.Parse.Positions
import StyleTree.Proofs.Grammar.Pseudo
import StyleTree.Proofs.Parse.Blanks
import StyleTree.Proofs.Parse.Letters
import StyleTree.Proofs.Parse.Nesting
import StyleTree.Proofs.Parse.Append
import StyleTree.Proofs.Parse.ByteOrderMark
import StyleTree.Proofs.Parse.ErrorLocation
import StyleTree.Proofs.Checked.Parse
import StyleTree.Proofs.Text.Lines
import StyleTree.Proofs.Token.History
import StyleTree.Proofs.Token.Locality
import StyleTree.Proofs.Token.Estimate
import StyleTree.Proofs.Parse.Negation
import StyleTree.Proofs.Grammar.Nth
import StyleTree.Proofs.Grammar.Attribute
import StyleTree.Proofs.Parse.SelectorList
import StyleTree.Proofs.Tree.Frame
import StyleTree.Proofs.Tree.Traversal
import StyleTree.Proofs.Text.Quoted
import StyleTree.Proofs.Print.Outline
import StyleTree.Proofs.Grammar.Separators
