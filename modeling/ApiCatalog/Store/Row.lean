import ApiCatalog.Store.Kind

/-!
# Rows

What the catalogue keeps of each thing. The natural key of an element is what tells it from the
others of its kind: its owner, and in there its name within its scope.
-/

namespace ApiCatalog

/-- A software that is documented. -/
structure Software where
  name : String
  slug : String
deriving DecidableEq, Repr, Inhabited

/-- A version of a software. -/
structure Version where
  software : Int
  version : String
  displayName : String
deriving DecidableEq, Repr, Inhabited

/-- An element of a version that lies in a namespace. -/
structure ElementRow where
  /-- The qualified name. -/
  name : String
  ns : Option String
  shortName : String
  summary : String
  description : String
  version : Int
deriving DecidableEq, Repr, Inhabited

/-- A class. -/
structure ClassRow extends ElementRow where
  isFinal : Bool
  isAbstract : Bool
  parent : Option Int
deriving DecidableEq, Repr, Inhabited

/-- A function. -/
structure FunctionRow extends ElementRow where
  /-- The types of the value returned, as the text of a list. -/
  returnTypes : String
  returnDescription : String
deriving DecidableEq, Repr, Inhabited

/-- A member of a class or interface. -/
structure MemberRow where
  name : String
  summary : String
  description : String
  isStatic : Bool
  visibility : String
  owner : Int
deriving DecidableEq, Repr, Inhabited

/-- A method. -/
structure MethodRow extends MemberRow where
  returnTypes : String
  returnDescription : String
deriving DecidableEq, Repr, Inhabited

/-- A method of a class. -/
structure ClassMethodRow extends MethodRow where
  isFinal : Bool
  isAbstract : Bool
deriving DecidableEq, Repr, Inhabited

/-- An old name of a class. -/
structure AliasRow where
  oldName : String
  newName : String
  /-- The version that drops the old name. -/
  dropped : String
  version : Int
deriving DecidableEq, Repr, Inhabited

/-- An argument of a method or function. -/
structure ArgumentRow where
  name : String
  description : String
  /-- The types, as the text of a list. -/
  types : String
  default : Option String
  ownerId : Int
  ownerWord : String
deriving DecidableEq, Repr, Inhabited

/-- That an element is deprecated. -/
structure DeprecationRow where
  description : String
  /-- The version that removes the element. -/
  removal : Option String
  ownerId : Int
  ownerWord : String
deriving DecidableEq, Repr, Inhabited

/-- What tells an element from the others of its kind. -/
structure NaturalKey where
  owner : Int
  scope : String
  name : String
deriving DecidableEq, Repr, Inhabited

/-- The natural key of an element of a version; no namespace and an empty one are the same. -/
def ElementRow.key (r : ElementRow) : NaturalKey := ⟨r.version, r.ns.getD "", r.shortName⟩

/-- The natural key of a member. -/
def MemberRow.key (r : MemberRow) : NaturalKey := ⟨r.owner, "", r.name⟩

/-- The natural key of an alias. -/
def AliasRow.key (r : AliasRow) : NaturalKey := ⟨r.version, r.oldName, r.newName⟩

/-- The argument belongs to `o`. -/
def ArgumentRow.isOf (r : ArgumentRow) (o : Owner) : Bool :=
  r.ownerWord == o.kind.keyword && r.ownerId == o.id

/-- The deprecation is that of `o`. -/
def DeprecationRow.isOf (r : DeprecationRow) (o : Owner) : Bool :=
  r.ownerWord == o.kind.keyword && r.ownerId == o.id

/-- The element that an argument belongs to. -/
def ArgumentRow.owner? (r : ArgumentRow) : Option Owner :=
  Owner.ofArgument? r.ownerWord r.ownerId

/-- The element that is deprecated. -/
def DeprecationRow.owner? (r : DeprecationRow) : Option Owner :=
  Owner.ofDeprecation? r.ownerWord r.ownerId

namespace ElementKind

/-- What is kept of elements of a kind. -/
@[reducible] def Row : ElementKind → Type
  | .classes => ClassRow
  | .interfaces => ElementRow
  | .classMethods => ClassMethodRow
  | .interfaceMethods => MethodRow
  | .classProperties => MemberRow
  | .functions => FunctionRow
  | .aliases => AliasRow

/-- The natural key of an element. -/
def key : (k : ElementKind) → k.Row → NaturalKey
  | .classes, r => r.toElementRow.key
  | .interfaces, r => r.key
  | .classMethods, r => r.toMemberRow.key
  | .interfaceMethods, r => r.toMemberRow.key
  | .classProperties, r => r.key
  | .functions, r => r.toElementRow.key
  | .aliases, r => r.key

instance : (k : ElementKind) → DecidableEq k.Row
  | .classes => inferInstanceAs (DecidableEq ClassRow)
  | .interfaces => inferInstanceAs (DecidableEq ElementRow)
  | .classMethods => inferInstanceAs (DecidableEq ClassMethodRow)
  | .interfaceMethods => inferInstanceAs (DecidableEq MethodRow)
  | .classProperties => inferInstanceAs (DecidableEq MemberRow)
  | .functions => inferInstanceAs (DecidableEq FunctionRow)
  | .aliases => inferInstanceAs (DecidableEq AliasRow)

end ElementKind
end ApiCatalog
