import ApiCatalog.Dictionary
import ApiCatalog.Php.Visibility

/-!
# What a source file declares

The declarations of a file with their names resolved: namespaces are known, references to classes
are qualified, and each declaration carries its documentation comment as raw text.
-/

namespace ApiCatalog.Php

/-- A declared constant. -/
structure DeclaredConstant where
  name : String
  docComment : Option String := none
deriving DecidableEq, Repr, Inhabited

/-- A declared property, its name without the sigil. -/
structure DeclaredProperty where
  name : String
  visibility : Visibility := .isPublic
  isStatic : Bool := false
  docComment : Option String := none
deriving DecidableEq, Repr, Inhabited

/-- A declared parameter, its name without the sigil. -/
structure DeclaredArgument where
  name : String
  type : Option String := none
  default : Option String := none
deriving DecidableEq, Repr, Inhabited

/-- A declared method and the imports in force there. -/
structure DeclaredMethod where
  name : String
  aliases : Dictionary String := ∅
  visibility : Visibility := .isPublic
  isStatic : Bool := false
  isFinal : Bool := false
  isAbstract : Bool := false
  arguments : List DeclaredArgument := []
  docComment : Option String := none
deriving DecidableEq, Repr, Inhabited

/-- A declared function and the imports in force there. -/
structure DeclaredFunction where
  name : String
  ns : Option String := none
  aliases : Dictionary String := ∅
  arguments : List DeclaredArgument := []
  docComment : Option String := none
deriving DecidableEq, Repr, Inhabited

/-- A declared class. -/
structure DeclaredClass where
  name : String
  ns : Option String := none
  isFinal : Bool := false
  isAbstract : Bool := false
  parent : Option String := none
  interfaces : List String := []
  constants : List DeclaredConstant := []
  properties : List DeclaredProperty := []
  methods : List DeclaredMethod := []
  docComment : Option String := none
  line : Nat := 0
deriving DecidableEq, Repr, Inhabited

/-- A declared interface. -/
structure DeclaredInterface where
  name : String
  ns : Option String := none
  parents : List String := []
  constants : List DeclaredConstant := []
  properties : List DeclaredProperty := []
  methods : List DeclaredMethod := []
  docComment : Option String := none
  line : Nat := 0
deriving DecidableEq, Repr, Inhabited

/-- The declarations of a stretch of source, each kind in order. -/
structure Declarations where
  constants : List DeclaredConstant := []
  functions : List DeclaredFunction := []
  classes : List DeclaredClass := []
  interfaces : List DeclaredInterface := []
deriving DecidableEq, Repr, Inhabited

namespace Declarations

/-- The declarations of one stretch and then of another. -/
def append (a b : Declarations) : Declarations :=
  { constants := a.constants ++ b.constants
    functions := a.functions ++ b.functions
    classes := a.classes ++ b.classes
    interfaces := a.interfaces ++ b.interfaces }

instance : Append Declarations := ⟨append⟩

end Declarations

/-- What a file declares, and the documentation comment of the file itself. -/
structure DeclaredFile where
  docComment : Option String := none
  declarations : Declarations := {}
deriving DecidableEq, Repr, Inhabited

end ApiCatalog.Php
