import ApiCatalog.Document.Decode
import ApiCatalog.Proofs.Json.Decode
import ApiCatalog.Proofs.Text.Utf8

/-!
# Documents survive their file

What an entry is written as decodes to the entry, level by level from the tags of a docblock up to
the document (`Document.decode_encode`). The fields that are left out are those whose absence means
what they hold: an absent field of a tag or method, an empty part of a docblock. A docblock is read
whole, which limits how deep it may lie; the deepest one, of a method, lies far above that limit.

A document is written as text and the text as bytes, and both steps are undone when the file is
read (`Document.ofBytes?_encode_write`).
-/

namespace ApiCatalog

open Json

/-! ## Docblocks -/

/-- The fields of a tag, present or absent. -/
def Tag.fields (t : Tag) : List (String × Option Json) :=
  [("name", some (.text t.name)), ("description", some (.text t.description)),
    ("types", t.types.map texts), ("link", t.link.map .text), ("variable", t.varName.map .text),
    ("refers", t.refers.map .text), ("version", t.version.map .text)]

/-- A tag is written as a record of the fields that it has. -/
theorem Tag.encode_eq (t : Tag) : t.encode = record (present t.fields) := by
  unfold Tag.encode Tag.fields
  congr 1
  cases t.types <;> cases t.link <;> cases t.varName <;> cases t.refers <;> cases t.version <;> rfl

/-- A text that may be missing comes back, missing or not. -/
theorem optional_text (s : Option String) : optional text? (s.map .text) = some s :=
  optional_map .text (fun _ => nofun) (fun _ => rfl) s

/-- A tag comes back. -/
theorem Tag.decode_encode (t : Tag) : Tag.decode t.encode = some t := by
  have hmembers := members?_present t.fields (by simp [fields])
  have htypes : optional (list? text?) (t.types.map texts) = some t.types :=
    optional_map texts (fun _ => nofun) list?_texts t.types
  rw [Tag.encode_eq]
  unfold Tag.decode
  simp only [fields, List.map_cons, List.map_nil] at hmembers ⊢
  simp [hmembers, required, orElse, text?, htypes, optional_text]

/-- The fields of a docblock, present or absent. -/
def Docblock.fields (d : Docblock) : List (String × Option Json) :=
  [("summary", if d.summary.isEmpty then none else some (.text d.summary)),
    ("description", if d.description.isEmpty then none else some (.text d.description)),
    ("tags", if d.tags.isEmpty then none else some (list Tag.encode d.tags))]

/-- A docblock is written as a record of the fields that are not empty. -/
theorem Docblock.encode_eq (d : Docblock) : d.encode = record (present d.fields) := by
  unfold Docblock.encode Docblock.fields
  congr 1
  cases d.summary.isEmpty <;> cases d.description.isEmpty <;> cases d.tags.isEmpty <;> rfl

/-! ## How deep docblocks go -/

/-- A tag is two levels deep, by its list of types. -/
theorem Tag.fitsIn_encode (t : Tag) : FitsIn 2 t.encode := by
  rw [Tag.encode_eq]
  refine fitsIn_present ?_
  simp [fields, fitsIn_text, texts]
  intro items htypes
  exact fitsIn_list .text fun _ _ => fitsIn_text _

/-- A docblock is two levels deeper than its tags. -/
theorem Docblock.fitsIn_encode (d : Docblock) : FitsIn 4 d.encode := by
  rw [Docblock.encode_eq]
  refine fitsIn_present ?_
  simp [fields, fitsIn_text]
  intro h
  exact fitsIn_list _ fun t _ => t.fitsIn_encode

/-- A text that is left out when empty. -/
theorem optional_unless_empty (s : String) :
    ∃ o, Json.optional text? (if s.isEmpty then none else some (.text s)) = some o ∧
      o.getD "" = s := by
  by_cases h : s.isEmpty = true
  · rw [if_pos h]
    exact ⟨none, rfl, (String.isEmpty_iff.1 h).symm⟩
  · rw [if_neg h]
    exact ⟨some s, rfl, rfl⟩

/-- A docblock comes back, as long as there is room for its levels. -/
theorem Docblock.decode_encode {level : Nat} (hlevel : level + 4 ≤ deepest) (d : Docblock) :
    Docblock.decode level d.encode = some d := by
  obtain ⟨hdepth, hplain⟩ := d.fitsIn_encode
  have hmembers : members? ["summary", "description", "tags"] (record (present d.fields)) =
      some [_, _, _] := members?_present d.fields (by simp [fields])
  obtain ⟨summary, hsummary, hsummary'⟩ := optional_unless_empty d.summary
  obtain ⟨description, hdescription, hdescription'⟩ := optional_unless_empty d.description
  have htags : orElse [] (list? Tag.decode)
      (if d.tags.isEmpty then none else some (list Tag.encode d.tags)) = some d.tags := by
    by_cases h : d.tags.isEmpty = true
    · rw [if_pos h, List.isEmpty_iff.1 h]
      rfl
    · rw [if_neg h]
      exact list?_list Tag.encode fun t _ => t.decode_encode
  unfold Docblock.decode
  rw [if_neg (by simp [hplain]; omega), encode_eq]
  show (members? _ (record (present d.fields)) >>= _) = _
  simp only [hmembers, hsummary, hdescription, htags, Option.bind_eq_bind, Option.bind_some,
    hsummary', hdescription']
  rfl

/-! ## Entries -/

variable {level : Nat}

/-- A constant comes back. -/
theorem ConstantEntry.decode_encode (hlevel : level + 5 ≤ deepest) (c : ConstantEntry) :
    ConstantEntry.decode level c.encode = some c := by
  have hdocblock : Docblock.decode (level + 1) c.docblock.encode = some c.docblock :=
    c.docblock.decode_encode (by omega)
  unfold ConstantEntry.decode ConstantEntry.encode
  rw [members?_record (by rfl) (by decide)]
  simp [required, orElse, text?, hdocblock]

/-- A property comes back, its visibility by its word. -/
theorem PropertyEntry.decode_encode (hlevel : level + 5 ≤ deepest) (p : PropertyEntry) :
    PropertyEntry.decode level p.encode = some p := by
  have hdocblock : Docblock.decode (level + 1) p.docblock.encode = some p.docblock :=
    p.docblock.decode_encode (by omega)
  unfold PropertyEntry.decode PropertyEntry.encode
  rw [members?_record (by rfl) (by decide)]
  simp [required, orElse, text?, bool?, hdocblock]

/-- An argument comes back, its type and default missing or not. -/
theorem ArgumentEntry.decode_encode (a : ArgumentEntry) :
    ArgumentEntry.decode a.encode = some a := by
  unfold ArgumentEntry.decode ArgumentEntry.encode
  rw [members?_record (by rfl) (by decide)]
  simp [required, orElse, text?, optional_textOrNull]

/-- The aliases of a namespace come back by their keys. -/
theorem decodeAliases_ofDictionary (d : Dictionary String) :
    decodeAliases (ofDictionary .text d) = some d :=
  entries?_ofDictionary fun _ _ => rfl

/-- The fields of a method, present or absent. -/
def MethodEntry.fields (m : MethodEntry) : List (String × Option Json) :=
  [("name", some (.text m.name)), ("aliases", some (ofDictionary .text m.aliases)),
    ("final", m.isFinal.map .bool), ("abstract", m.isAbstract.map .bool),
    ("static", some (.bool m.isStatic)), ("visibility", some (.text m.visibility)),
    ("arguments", some (list ArgumentEntry.encode m.arguments)),
    ("docblock", some m.docblock.encode)]

/-- A method is written as a record of the fields that it has. -/
theorem MethodEntry.encode_eq (m : MethodEntry) : m.encode = record (present m.fields) := by
  unfold MethodEntry.encode MethodEntry.fields
  congr 1
  cases m.isFinal <;> cases m.isAbstract <;> rfl

/-- A method comes back, flags that are left out as false. -/
theorem MethodEntry.decode_encode (hlevel : level + 5 ≤ deepest) (m : MethodEntry) :
    MethodEntry.decode level m.encode = some m := by
  have hdocblock : Docblock.decode (level + 1) m.docblock.encode = some m.docblock :=
    m.docblock.decode_encode (by omega)
  have hflag : ∀ b : Option Bool, Json.optional bool? (b.map .bool) = some b :=
    optional_map .bool (fun _ => nofun) fun _ => rfl
  have hmembers := members?_present m.fields (by simp [fields])
  unfold MethodEntry.decode
  rw [MethodEntry.encode_eq]
  simp only [fields, List.map_cons, List.map_nil] at hmembers ⊢
  simp [hmembers, required, orElse, text?, bool?, hflag, decodeAliases_ofDictionary, list?_list,
    ArgumentEntry.decode_encode, hdocblock]

/-- A function comes back. -/
theorem FunctionEntry.decode_encode (hlevel : level + 5 ≤ deepest) (f : FunctionEntry) :
    FunctionEntry.decode level f.encode = some f := by
  have hdocblock : Docblock.decode (level + 1) f.docblock.encode = some f.docblock :=
    f.docblock.decode_encode (by omega)
  unfold FunctionEntry.decode FunctionEntry.encode
  rw [members?_record (by rfl) (by decide)]
  simp [required, orElse, text?, decodeAliases_ofDictionary, list?_list,
    ArgumentEntry.decode_encode, hdocblock]

/-- A class comes back with its members, two levels further down. -/
theorem ClassEntry.decode_encode (hlevel : level + 7 ≤ deepest) (c : ClassEntry) :
    ClassEntry.decode level c.encode = some c := by
  have hdocblock : Docblock.decode (level + 1) c.docblock.encode = some c.docblock :=
    c.docblock.decode_encode (by omega)
  have hconstant (a : ConstantEntry) : ConstantEntry.decode (level + 2) a.encode = some a :=
    a.decode_encode (by omega)
  have hproperty (a : PropertyEntry) : PropertyEntry.decode (level + 2) a.encode = some a :=
    a.decode_encode (by omega)
  have hmethod (a : MethodEntry) : MethodEntry.decode (level + 2) a.encode = some a :=
    a.decode_encode (by omega)
  unfold ClassEntry.decode ClassEntry.encode
  rw [members?_record (by rfl) (by decide)]
  simp [required, orElse, text?, bool?, list?_texts, list?_list, hconstant, hproperty, hmethod,
    hdocblock]

theorem InterfaceEntry.decode_encode (hlevel : level + 7 ≤ deepest) (i : InterfaceEntry) :
    InterfaceEntry.decode level i.encode = some i := by
  have hdocblock : Docblock.decode (level + 1) i.docblock.encode = some i.docblock :=
    i.docblock.decode_encode (by omega)
  have hconstant (a : ConstantEntry) : ConstantEntry.decode (level + 2) a.encode = some a :=
    a.decode_encode (by omega)
  have hproperty (a : PropertyEntry) : PropertyEntry.decode (level + 2) a.encode = some a :=
    a.decode_encode (by omega)
  have hmethod (a : MethodEntry) : MethodEntry.decode (level + 2) a.encode = some a :=
    a.decode_encode (by omega)
  unfold InterfaceEntry.decode InterfaceEntry.encode
  rw [members?_record (by rfl) (by decide)]
  simp [required, orElse, text?, list?_texts, list?_list, hconstant, hproperty, hmethod, hdocblock]

/-- An alias comes back. -/
theorem AliasEntry.decode_encode (a : AliasEntry) : AliasEntry.decode a.encode = some a := by
  unfold AliasEntry.decode AliasEntry.encode
  rw [members?_record (by rfl) (by decide)]
  simp [required, text?]

/-- A file comes back with all its declarations. -/
theorem FileEntry.decode_encode (hlevel : level + 9 ≤ deepest) (f : FileEntry) :
    FileEntry.decode level f.encode = some f := by
  have hdocblock : Docblock.decode (level + 1) f.docblock.encode = some f.docblock :=
    f.docblock.decode_encode (by omega)
  have hconstant (a : ConstantEntry) : ConstantEntry.decode (level + 2) a.encode = some a :=
    a.decode_encode (by omega)
  have hfunction (a : FunctionEntry) : FunctionEntry.decode (level + 2) a.encode = some a :=
    a.decode_encode (by omega)
  have hclass (a : ClassEntry) : ClassEntry.decode (level + 2) a.encode = some a :=
    a.decode_encode (by omega)
  have hinterface (a : InterfaceEntry) : InterfaceEntry.decode (level + 2) a.encode = some a :=
    a.decode_encode (by omega)
  unfold FileEntry.decode FileEntry.encode
  rw [members?_record (by rfl) (by decide)]
  simp [orElse, list?_list, hdocblock, hconstant, hfunction, hclass, hinterface]

/-- A document comes back, its files by their keys. -/
theorem Document.decode_encode (d : Document) : Document.decode d.encode = some d := by
  have hfiles : (entries? (FileEntry.decode 2) (ofDictionary FileEntry.encode d.files)).map
      Dictionary.ofList = some d.files :=
    entries?_ofDictionary fun f _ => f.2.decode_encode (by decide)
  unfold Document.decode Document.encode
  rw [members?_record (by rfl) (by decide)]
  simp [orElse, hfiles, list?_list, AliasEntry.decode_encode]

/-! ## The text of a document -/

/-- What a tag is written as can be read, and so can all that follow. -/
theorem Tag.written_encode (t : Tag) : Written t.encode := by
  rw [Tag.encode_eq]
  refine written_present ?_
  simp [fields, Written.text, written_texts]

/-- The tags of a docblock stand in a list. -/
theorem Docblock.written_encode (d : Docblock) : Written d.encode := by
  have htags : Written (list Tag.encode d.tags) := written_list _ fun t _ => t.written_encode
  rw [Docblock.encode_eq]
  refine written_present ?_
  simp [fields, Written.text, htags]

theorem ConstantEntry.written_encode (c : ConstantEntry) : Written c.encode := by
  refine written_record ?_
  simp [Written.text, Docblock.written_encode]

theorem PropertyEntry.written_encode (p : PropertyEntry) : Written p.encode := by
  refine written_record ?_
  simp [Written.text, Written.bool, Docblock.written_encode]

theorem ArgumentEntry.written_encode (a : ArgumentEntry) : Written a.encode := by
  refine written_record ?_
  simp [Written.text, written_textOrNull]

/-- Every entry of a dictionary of texts is written as a text. -/
theorem written_aliases (d : Dictionary String) : Written (ofDictionary .text d) :=
  written_ofDictionary fun _ _ => .text _

/-- The fields of a method that are left out are not written. -/
theorem MethodEntry.written_encode (m : MethodEntry) : Written m.encode := by
  have harguments : Written (list ArgumentEntry.encode m.arguments) :=
    written_list _ fun a _ => a.written_encode
  have hflag (b : Option Bool) : ∀ value, b.map Json.bool = some value → Written value := by
    rintro value hvalue
    obtain ⟨b, -, rfl⟩ := Option.map_eq_some_iff.1 hvalue
    exact .bool b
  rw [MethodEntry.encode_eq]
  refine written_present ?_
  simp [-Option.map_eq_some_iff, fields, Written.text, Written.bool, written_aliases, harguments,
    Docblock.written_encode]
  exact ⟨hflag _, hflag _⟩

theorem FunctionEntry.written_encode (f : FunctionEntry) : Written f.encode := by
  have harguments : Written (list ArgumentEntry.encode f.arguments) :=
    written_list _ fun a _ => a.written_encode
  refine written_record ?_
  simp [Written.text, written_aliases, harguments, Docblock.written_encode]

/-- The members of a class stand in lists. -/
theorem ClassEntry.written_encode (c : ClassEntry) : Written c.encode := by
  have hconstants : Written (list ConstantEntry.encode c.constants) :=
    written_list _ fun a _ => a.written_encode
  have hproperties : Written (list PropertyEntry.encode c.properties) :=
    written_list _ fun a _ => a.written_encode
  have hmethods : Written (list MethodEntry.encode c.methods) :=
    written_list _ fun a _ => a.written_encode
  refine written_record ?_
  simp [Written.text, Written.bool, written_texts, hconstants, hproperties, hmethods,
    Docblock.written_encode]

theorem InterfaceEntry.written_encode (i : InterfaceEntry) : Written i.encode := by
  have hconstants : Written (list ConstantEntry.encode i.constants) :=
    written_list _ fun a _ => a.written_encode
  have hproperties : Written (list PropertyEntry.encode i.properties) :=
    written_list _ fun a _ => a.written_encode
  have hmethods : Written (list MethodEntry.encode i.methods) :=
    written_list _ fun a _ => a.written_encode
  refine written_record ?_
  simp [Written.text, written_texts, hconstants, hproperties, hmethods, Docblock.written_encode]

theorem AliasEntry.written_encode (a : AliasEntry) : Written a.encode := by
  refine written_record ?_
  simp [Written.text]

/-- The declarations of a file stand in lists. -/
theorem FileEntry.written_encode (f : FileEntry) : Written f.encode := by
  have hconstants : Written (list ConstantEntry.encode f.constants) :=
    written_list _ fun a _ => a.written_encode
  have hfunctions : Written (list FunctionEntry.encode f.functions) :=
    written_list _ fun a _ => a.written_encode
  have hclasses : Written (list ClassEntry.encode f.classes) :=
    written_list _ fun a _ => a.written_encode
  have hinterfaces : Written (list InterfaceEntry.encode f.interfaces) :=
    written_list _ fun a _ => a.written_encode
  refine written_record ?_
  simp [hconstants, hfunctions, hclasses, hinterfaces, Docblock.written_encode]

/-- The files of a document stand under their keys. -/
theorem Document.written_encode (d : Document) : Written d.encode := by
  have hfiles : Written (ofDictionary FileEntry.encode d.files) :=
    written_ofDictionary fun f _ => f.2.written_encode
  have haliases : Written (list AliasEntry.encode d.aliases) :=
    written_list _ fun a _ => a.written_encode
  refine written_record ?_
  simp [hfiles, haliases]

/-- A document is read from its text. -/
theorem Document.read?_write (d : Document) : Document.read? d.write.toList = some d := by
  unfold Document.read? Document.write
  rw [String.toList_ofList, read?_pretty d.written_encode, Option.bind_some, decode_encode]

/-- A file that a document is written to holds that document and no other, and writing what was
read gives the same bytes. -/
theorem Document.ofBytes?_encode_write (d : Document) :
    Document.ofBytes? (Text.encode d.write) = some d ∧
      (Document.ofBytes? (Text.encode d.write)).map (Text.encode ·.write) =
        some (Text.encode d.write) := by
  have hread : Document.ofBytes? (Text.encode d.write) = some d := by
    unfold Document.ofBytes?
    rw [Text.decodeWith_encode, read?_write]
  rw [hread]
  exact ⟨rfl, rfl⟩

end ApiCatalog
