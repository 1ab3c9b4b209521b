import StyleTree.Grammar.Rule

/-!
# Entry points of the grammar

A text can be read as a whole style sheet or as one of its parts. The context also says whether the
text stands inside a block, which changes how the scanner takes two slashes.
-/

namespace StyleTree

/-- What a text is read as. -/
inductive Context where
  | stylesheet
  | atrule
  | atruleExpression
  | ruleset
  | selector
  | simpleSelector
  | block
  | declaration
  | property
  | value
  deriving DecidableEq, Repr, Inhabited

namespace Context

/-- All contexts. -/
def all : List Context :=
  [.stylesheet, .atrule, .atruleExpression, .ruleset, .selector, .simpleSelector, .block,
    .declaration, .property, .value]

/-- The name of the context. -/
def name : Context → String
  | .stylesheet => "stylesheet"
  | .atrule => "atrule"
  | .atruleExpression => "atruleExpression"
  | .ruleset => "ruleset"
  | .selector => "selector"
  | .simpleSelector => "simpleSelector"
  | .block => "block"
  | .declaration => "declaration"
  | .property => "property"
  | .value => "value"

/-- The context of the given name; case matters. -/
def ofName? (name : String) : Option Context :=
  all.find? fun context => context.name = name

/-- The place of the context among all of them. -/
def index (context : Context) : Nat :=
  all.idxOf context

/-- Whether the text stands inside a block. -/
def startsInBlock : Context → Bool
  | .block | .declaration | .property | .value => true
  | _ => false

/-- The production that reads a text of `size` tokens in the context. -/
def production (context : Context) (size : Nat) : Parser Tree :=
  let inner := Grammar.Nested.upTo (size + 1)
  let sheet := Grammar.nestedSheet inner (size + 1)
  match context with
  | .stylesheet => Grammar.styleSheet inner sheet false
  | .atrule => Grammar.atrule inner sheet
  | .atruleExpression => Grammar.atruleExpression inner
  | .ruleset => Grammar.ruleset inner
  | .selector => Grammar.selector inner
  | .simpleSelector => Grammar.simpleSelector inner false
  | .block => Grammar.block inner
  | .declaration => Grammar.declaration inner
  | .property => Grammar.property
  | .value => Grammar.value inner false

end Context
end StyleTree
