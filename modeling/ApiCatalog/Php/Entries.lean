import ApiCatalog.Docblock.Interpret
import ApiCatalog.Document.Basic
import ApiCatalog.Php.Declared

/-!
# From declarations to entries of a document

The documentation comments are interpreted, and what is absent gets its spelling in a document:
the global namespace its name, a missing parent or type the empty text. Methods of classes say
whether they are final and abstract; methods of interfaces do not.
-/

namespace ApiCatalog.Php

/-- The namespace as documents spell it. -/
def documentNamespace (ns : Option String) : String := ns.getD globalNamespace

def DeclaredArgument.entry (a : DeclaredArgument) : ArgumentEntry :=
  { name := a.name, default := a.default, type := a.type.getD "" }

def DeclaredConstant.entry (c : DeclaredConstant) : ConstantEntry :=
  { name := c.name, docblock := Docblock.interpret? c.docComment }

def DeclaredProperty.entry (p : DeclaredProperty) : PropertyEntry :=
  { name := p.name, isStatic := p.isStatic, visibility := p.visibility.keyword
    docblock := Docblock.interpret? p.docComment }

/-- The entry of a method of an interface. -/
def DeclaredMethod.interfaceEntry (m : DeclaredMethod) : MethodEntry :=
  { name := m.name, aliases := m.aliases, isStatic := m.isStatic
    visibility := m.visibility.keyword, arguments := m.arguments.map DeclaredArgument.entry
    docblock := Docblock.interpret? m.docComment }

/-- The entry of a method of a class. -/
def DeclaredMethod.classEntry (m : DeclaredMethod) : MethodEntry :=
  { m.interfaceEntry with isFinal := some m.isFinal, isAbstract := some m.isAbstract }

def DeclaredFunction.entry (f : DeclaredFunction) : FunctionEntry :=
  { name := f.name, ns := documentNamespace f.ns, aliases := f.aliases
    arguments := f.arguments.map DeclaredArgument.entry
    docblock := Docblock.interpret? f.docComment }

def DeclaredClass.entry (c : DeclaredClass) : ClassEntry :=
  { name := c.name, ns := documentNamespace c.ns, isFinal := c.isFinal, isAbstract := c.isAbstract
    parent := c.parent.getD "", implements := c.interfaces
    constants := c.constants.map DeclaredConstant.entry
    properties := c.properties.map DeclaredProperty.entry
    methods := c.methods.map DeclaredMethod.classEntry
    docblock := Docblock.interpret? c.docComment }

def DeclaredInterface.entry (i : DeclaredInterface) : InterfaceEntry :=
  { name := i.name, ns := documentNamespace i.ns, parents := i.parents
    constants := i.constants.map DeclaredConstant.entry
    properties := i.properties.map DeclaredProperty.entry
    methods := i.methods.map DeclaredMethod.interfaceEntry
    docblock := Docblock.interpret? i.docComment }

def DeclaredFile.entry (f : DeclaredFile) : FileEntry :=
  { docblock := Docblock.interpret? f.docComment
    constants := f.declarations.constants.map DeclaredConstant.entry
    functions := f.declarations.functions.map DeclaredFunction.entry
    classes := f.declarations.classes.map DeclaredClass.entry
    interfaces := f.declarations.interfaces.map DeclaredInterface.entry }

end ApiCatalog.Php
