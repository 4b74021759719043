import RenderGuard.Tree.Basic

/-! The pieces of code that wrapping adds to a program. None stands for source text, so all their
spans are dummy. -/
namespace RenderGuard.Fragment

/-- The name the handler module is bound to. -/
def handlerName : String := "ReactSSRErrorHandler"

/-- The method that a wrapped class keeps its own render under. -/
def marker : String := "__originalRenderMethod__"

def renderName : String := "render"

def unspanned : String × Tree := ("span", .leaf (.span .dummy))

def absent : Tree := .leaf .null

def flag (b : Bool) : Tree := .leaf (.bool b)

def context (n : Nat) : String × Tree := ("ctxt", .leaf (.context n))

/-- A name after a dot or in front of a method. -/
def propertyName (name : String) : Tree := .identifier name [unspanned]

/-- A variable that is read. -/
def variableIn (n : Nat) (name : String) : Tree :=
  .identifier name [unspanned, context n, ("optional", flag false)]

/-- A variable that is bound. -/
def binder (name : String) : Tree :=
  .identifier name [unspanned, context 0, ("optional", flag false), ("typeAnnotation", absent)]

def this : Tree := .node "ThisExpression" [unspanned]

def access (object : Tree) (name : String) : Tree :=
  .memberAccess object (propertyName name) [unspanned]

def argument (t : Tree) : Tree := .record [("spread", absent), ("expression", t)]

def call (callee : Tree) (arguments : List Tree) : Tree :=
  .node "CallExpression" [unspanned, context 0, ("callee", callee),
    ("arguments", .list (arguments.map argument)), ("typeArguments", absent)]

def returned (t : Tree) : Tree := .node "ReturnStatement" [unspanned, ("argument", t)]

/-- Runs `stmts`; what they throw goes to the handler as `e`, with `details` after it. -/
def guarded (stmts details : List Tree) : Tree :=
  .node "TryStatement" [unspanned,
    ("block", .block .dummy 0 stmts),
    ("handler", .node "CatchClause" [unspanned,
      ("param", binder "e"),
      ("body", .block .dummy 0
        [returned (call (variableIn 0 handlerName) (variableIn 0 "e" :: details))])]),
    ("finalizer", absent)]

/-- What a wrapped arrow runs. -/
def guardedBody (stmts : List Tree) : Tree := guarded stmts []

/-- What the new render of a wrapped class runs. -/
def guardedRender : Tree :=
  guarded [returned (call (access this marker) [])] [access (access this "constructor") "name"]

/-- The new render of a wrapped class. -/
def delegatingRender : Tree :=
  .method (propertyName renderName) false
    (.record [("params", .list []), ("decorators", .list []), unspanned, context 0,
      ("body", .block .dummy 0 [guardedRender]), ("generator", flag false), ("async", flag false),
      ("typeParameters", absent), ("returnType", absent)])
    [unspanned, ("kind", .leaf (.text "method")), ("accessibility", absent),
      ("isAbstract", flag false), ("isOptional", flag false), ("isOverride", flag false)]

/-- Binds the handler to what requiring `specifier` gives; `n` is the context of `require`. -/
def binding (specifier : String) (n : Nat) : Tree :=
  .node "VariableDeclaration" [unspanned, context 0, ("kind", .leaf (.text "const")),
    ("declare", flag false),
    ("declarations", .list [.node "VariableDeclarator" [unspanned, ("definite", flag false),
      ("id", binder handlerName),
      ("init", call (variableIn n "require")
        [.stringLiteral specifier [unspanned, ("raw", absent)]])]])]

end RenderGuard.Fragment
