import VertexLanes.Block.Node
import VertexLanes.Token.Basic

/-!
# Class definitions

What a source file declares at its top level, as far as a conversion needs it.
-/

namespace VertexLanes

/-- A name with its type and an optional value: a data member or a parameter. -/
structure Field where
  /-- The declared name; a parameter may have none. -/
  name : String
  /-- The type, as text. -/
  type : String
  /-- The default value, as text. -/
  value : Option String
deriving DecidableEq, Repr

/-- A member function. -/
structure Method where
  /-- The name; an operator's name includes the word `operator`. -/
  name : String
  /-- The type of the result, as text. -/
  result : String
  /-- The parameters, in order. -/
  params : List Field
  /-- What stands between the parameters and the body, such as `const`. -/
  qualifiers : List String
  /-- The body, if it is given. -/
  body : Option (Node Token)
  /-- The range of the whole definition. -/
  span : Span

namespace Method

/-- Whether the method promises not to change its object. -/
def isConst (m : Method) : Bool := m.qualifiers.contains "const"

/-- A parameter without its default value. -/
def paramText (p : Field) : String := if p.name.isEmpty then p.type else p.type ++ " " ++ p.name

/-- The head of the method: result, name, parameters and `const`. -/
def signature (m : Method) : String :=
  m.result ++ " " ++ m.name ++ "(" ++ String.intercalate ", " (m.params.map paramText) ++ ")" ++
    (if m.isConst then " const" else "")

end Method

/-- The two words that introduce a class. -/
inductive ClassKey where
  | structKey
  | classKey
deriving DecidableEq, Repr

/-- The word itself. -/
def ClassKey.name : ClassKey → String
  | .structKey => "struct"
  | .classKey => "class"

/-- A class with its members. -/
structure ClassDef where
  /-- The word that introduces it. -/
  key : ClassKey
  /-- Its name. -/
  name : Located String
  /-- Every name between the colon and the body, in order. -/
  bases : List String
  /-- The data members, in order. -/
  fields : List (Located Field)
  /-- The member functions, in order. -/
  methods : List Method
  /-- The range of the whole definition. -/
  span : Span

namespace ClassDef

/-- Whether a name is among the bases. -/
def derives (c : ClassDef) (base : String) : Bool := c.bases.contains base

/-- Whether the class is marked as plain data. -/
def isPod (c : ClassDef) : Bool := c.derives "IS_POD_TYPE"

/-- The first method of a given name. -/
def method? (c : ClassDef) (name : String) : Option Method := c.methods.find? (·.name == name)

/-- The methods that have the name of the class and no result. -/
def constructors (c : ClassDef) : List Method :=
  c.methods.filter fun m => m.name == c.name.item && m.result.isEmpty

end ClassDef

/-- A source file. -/
structure SourceFile where
  /-- The lines to be copied to the head of the converted program. -/
  patch : List String
  /-- The classes, in order. -/
  classes : List ClassDef

/-- The first class of a given name. -/
def SourceFile.class? (file : SourceFile) (name : String) : Option ClassDef :=
  file.classes.find? (·.name.item == name)

end VertexLanes
