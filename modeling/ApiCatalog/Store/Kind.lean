/-!
# Kinds of elements

The catalogue keeps seven kinds of elements. Classes, interfaces, functions and class aliases
belong to a version; methods and properties belong to a class or interface. Some kinds may be
deprecated, and some take arguments; a deprecation or an argument refers to its owner by the
word for the kind and an id.
-/

namespace ApiCatalog

/-- The kinds of elements. -/
inductive ElementKind where
  | classes
  | interfaces
  | classMethods
  | interfaceMethods
  | classProperties
  | functions
  | aliases
deriving DecidableEq, Repr, Inhabited

/-- What an element belongs to. -/
inductive OwnerKind where
  | versions
  | classes
  | interfaces
deriving DecidableEq, Repr, Inhabited

/-- The name of the owners' table. -/
def OwnerKind.tableName : OwnerKind → String
  | .versions => "versions"
  | .classes => "classes"
  | .interfaces => "interfaces"

namespace ElementKind

/-- All kinds. -/
def all : List ElementKind :=
  [.classes, .interfaces, .classMethods, .interfaceMethods, .classProperties, .functions, .aliases]

/-- The word under which other rows refer to an element of the kind. -/
def keyword : ElementKind → String
  | .classes => "class"
  | .interfaces => "interface"
  | .classMethods => "class_method"
  | .interfaceMethods => "interface_method"
  | .classProperties => "class_property"
  | .functions => "function"
  | .aliases => "alias"

/-- The kind that a word names. -/
def ofKeyword? (word : String) : Option ElementKind := all.find? (·.keyword == word)

/-- What an element of the kind is called in messages. -/
def title : ElementKind → String
  | .classes => "class"
  | .interfaces => "interface"
  | .classMethods => "class method"
  | .interfaceMethods => "interface method"
  | .classProperties => "class property"
  | .functions => "function"
  | .aliases => "class alias"

/-- The name of the kind's table. -/
def tableName : ElementKind → String
  | .classes => "classes"
  | .interfaces => "interfaces"
  | .classMethods => "class_methods"
  | .interfaceMethods => "interface_methods"
  | .classProperties => "class_properties"
  | .functions => "functions"
  | .aliases => "class_aliases"

/-- What an element of the kind belongs to. -/
def ownerKind : ElementKind → OwnerKind
  | .classMethods | .classProperties => .classes
  | .interfaceMethods => .interfaces
  | .classes | .interfaces | .functions | .aliases => .versions

/-- Elements of the kind take arguments. -/
def takesArguments : ElementKind → Bool
  | .classMethods | .interfaceMethods | .functions => true
  | _ => false

/-- Elements of the kind may be deprecated. -/
def takesDeprecation : ElementKind → Bool
  | .aliases => false
  | _ => true

end ElementKind

/-- An element that other rows refer to. -/
structure Owner where
  kind : ElementKind
  id : Int
deriving DecidableEq, Repr, Inhabited

/-- The element that a word and an id refer to as an owner of arguments. -/
def Owner.ofArgument? (word : String) (id : Int) : Option Owner :=
  ((ElementKind.ofKeyword? word).filter (·.takesArguments)).map (⟨·, id⟩)

/-- The element that a word and an id refer to as an owner of a deprecation. -/
def Owner.ofDeprecation? (word : String) (id : Int) : Option Owner :=
  ((ElementKind.ofKeyword? word).filter (·.takesDeprecation)).map (⟨·, id⟩)

end ApiCatalog
