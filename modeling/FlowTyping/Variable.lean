import FlowTyping.Handle

/-!
# Declared variables

What a declaration says about the variable that it introduces, and the variable itself. After its
declaration only the type of a variable changes.
-/
namespace FlowTyping

/-- The syntactic form of a declaration. -/
inductive DeclForm where
  | varDecl | letDecl | constDecl | parameter | functionDecl | classDecl | catchBinding
  | importBinding | qualifiedName
deriving DecidableEq

namespace DeclForm

def text : DeclForm → String
  | varDecl => "Var"
  | letDecl => "Let"
  | constDecl => "Const"
  | parameter => "Param"
  | functionDecl => "Function"
  | classDecl => "Class"
  | catchBinding => "Catch"
  | importBinding => "Import"
  | qualifiedName => "QualifiedName"

def all : List DeclForm :=
  [varDecl, letDecl, constDecl, parameter, functionDecl, classDecl, catchBinding, importBinding,
    qualifiedName]

def ofText? (word : String) : Option DeclForm := all.find? (·.text == word)

/-- Whether the binding exists from the start of its function, without a value. -/
def isHoisted : DeclForm → Bool
  | varDecl => true
  | _ => false

end DeclForm

/-- The node that declares, and the form of the declaration around it. -/
structure Declaration where
  node : NodeId
  form : DeclForm
deriving DecidableEq

def Declaration.text (declaration : Declaration) : String :=
  Text.record "DeclNode" [("node", declaration.node.text), ("form", declaration.form.text)]

/-- A compilation unit. An extern unit describes what is defined elsewhere. -/
structure InputUnit where
  id : InputId
  isExtern : Bool
deriving DecidableEq

def InputUnit.text (unit : InputUnit) : String :=
  Text.record "InputUnit" [("id", unit.id.text), ("is_extern", Text.truth unit.isExtern)]

/-- What a declaration says about its variable. No type means that none is known. -/
structure Variable.Details where
  declaration : Option Declaration
  type : Option TypeId
  input : Option InputUnit
  isInferred : Bool
deriving DecidableEq

/-- A declared variable. Its ordinal is its place among the declarations of its scope. -/
structure Variable extends Variable.Details where
  id : VarId
  name : Name
  scope : ScopeId
  ordinal : Nat
deriving DecidableEq

namespace Variable.Details

/-- Whether the declaration is part of an extern unit. -/
def isExtern (details : Details) : Bool := details.input.any (·.isExtern)

/-- Whether the variable starts out undefined rather than unknown: a hoisted binding of the program
itself that has no type yet. -/
def isUnboundUntyped (details : Details) : Bool :=
  details.type.isNone && !details.isExtern && details.declaration.any (·.form.isHoisted)

end Variable.Details
end FlowTyping
