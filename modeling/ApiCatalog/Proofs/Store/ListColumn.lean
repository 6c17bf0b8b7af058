import ApiCatalog.Proofs.Store.Apply
import ApiCatalog.Proofs.Store.Declared
import ApiCatalog.Proofs.Store.TextList
import ApiCatalog.Proofs.Store.Unique
import ApiCatalog.Store.Columns

/-!
# Columns of lists

Four columns keep a list of types as the text of a JSON array. Whatever text comes to stand in one
of them, its row is read, and the field is the list that the text spells, or the empty list if it
spells none; no other field of the row and no other row is read differently.
-/

namespace ApiCatalog

variable {s : Store} {id : Int} {column text : String} {items : List String}

/-! ## Decoding -/

/-- `items` is the list that a text spells, or empty if the text spells no list. -/
def Denotes (text : String) (items : List String) : Prop :=
  Json.SpellsTexts text.toList items ∨
    items = [] ∧ ∀ items', ¬ Json.SpellsTexts text.toList items'

/-- A text is read as the one list that it denotes. -/
theorem TextList.read_eq_iff : TextList.read text = items ↔ Denotes text items := by
  unfold TextList.read
  constructor
  · rintro rfl
    cases hlist : (Json.read? text.toList).bind (Json.list? Json.text?) with
    | some items => exact .inl (Json.decode_eq_some_iff.1 hlist)
    | none =>
      refine .inr ⟨rfl, fun items' h => ?_⟩
      rw [Json.decode_eq_some_iff.2 h] at hlist
      cases hlist
  · rintro (h | ⟨rfl, hnone⟩)
    · rw [Json.decode_eq_some_iff.2 h]
      rfl
    · cases hlist : (Json.read? text.toList).bind (Json.list? Json.text?) with
      | some items => exact absurd (Json.decode_eq_some_iff.1 hlist) (hnone items)
      | none => rfl

/-! ## Writing into a row -/

/-- The row starts with the id. -/
def Fields.HasId (row : Fields) (id : Int) : Prop := row.head? = some ("id", .int id)

instance (row : Fields) (id : Int) : Decidable (row.HasId id) :=
  inferInstanceAs (Decidable (_ = _))

/-- The fields with another one in a column. -/
def Fields.put (column : String) (field : Field) (row : Fields) : Fields :=
  row.map fun f => if f.1 = column then (column, field) else f

/-- The tables with another field in a column of the row under an id. -/
def withField (table column : String) (id : Int) (field : Field)
    (tables : List (String × List Fields)) : List (String × List Fields) :=
  tables.map fun t =>
    (t.1, t.2.map fun row => if t.1 = table ∧ row.HasId id then row.put column field else row)

/-- The columns that keep a list of texts, each with its table. -/
def listColumns : List (String × String) :=
  [("arguments", "types"), ("functions", "return_types"), ("class_methods", "return_types"),
    ("interface_methods", "return_types")]

section
variable {α : Type} {t : Table α} {cols : α → Columns} {row row' : α} {field : Field}

/-- The rows of a table as they are read. -/
def Table.fields (cols : α → Columns) (t : Table α) : List Fields :=
  t.records.map fun r => (r.columns cols).read

theorem hasId_columns_iff {r : Record α} : (r.columns cols).read.HasId id ↔ r.id = id := by
  simp [Fields.HasId, Record.columns, Columns.read, Cell.read]

/-- Where a row is replaced by one that differs in a single field, the table is read with that field
in its place. -/
theorem fields_update (hrow : t.get? id = some row) (hid : column ≠ "id")
    (hcols : (cols row').read = (cols row).read.put column field) :
    (t.update id fun _ => row').fields cols =
      (t.fields cols).map fun row => if row.HasId id then row.put column field else row := by
  unfold Table.fields Table.update Table.mapRows
  rw [List.map_map, List.map_map]
  refine List.map_congr_left fun r hr => ?_
  simp only [Function.comp_apply, hasId_columns_iff]
  by_cases h : r.id = id
  · have hrecord : r = ⟨id, row⟩ := Table.eq_of_id_eq hr (Table.get?_eq_some_iff.1 hrow) h
    subst hrecord
    simp only [if_true]
    show ("id", Field.int id) :: (cols row').read =
      (if "id" = column then _ else ("id", Field.int id)) :: (cols row).read.put column field
    rw [hcols, if_neg hid.symm]
  · rw [if_neg h, if_neg h]

/-- A store that differs in such a row of one table is read with that field in its place. -/
theorem fields_eq_withField {s' : Store} {table : String} (hrow : t.get? id = some row)
    (hid : column ≠ "id") (hcols : (cols row').read = (cols row).read.put column field)
    (hread : ∀ rows, (table, rows) ∈ s.fields → rows = t.fields cols)
    (hset : s'.fields = s.fields.map fun named =>
      (named.1, if named.1 = table then (t.update id fun _ => row').fields cols else named.2)) :
    s'.fields = withField table column id field s.fields := by
  rw [hset, withField]
  refine List.map_congr_left fun named hnamed => Prod.ext rfl ?_
  by_cases h : named.1 = table
  · have hrows : named.2 = t.fields cols := hread _ (h ▸ hnamed)
    simp only [h, if_true, true_and]
    rw [hrows, fields_update hrow hid hcols]
  · simp [h]

theorem changeRow_apply {rules : List (Uniqueness α)} {f : α → Option α}
    (hrow : t.get? id = some row) (hf : f row = some row')
    (hrules : ∀ u ∈ rules, ∀ r ∈ t.records, r.id ≠ id → u.agree r.row row' = false) :
    (Change.changeRow t rules id f).apply s = (.ok (t.update id fun _ => row', 1), s) := by
  -- The key of the row has not changed, so no rule is broken that held before.
  have hnone : t.broken? rules id row' = none := by
    unfold Table.broken?
    rw [Option.map_eq_none_iff, List.find?_eq_none]
    intro u hu hany
    obtain ⟨r, hr, hbroken⟩ := List.any_eq_true.1 hany
    simp only [Bool.and_eq_true, bne_iff_ne] at hbroken
    rw [hrules u hu r hr hbroken.1] at hbroken
    cases hbroken.2
  have hchanged : (t.get? id).bind f = some row' := by
    rw [hrow]
    exact hf
  unfold Change.changeRow
  rw [hchanged]
  show (Change.checkUnique t rules id row' >>= _).apply s = _
  unfold Change.checkUnique
  rw [hnone]
  rfl

end

/-- No other row has the key of a row under an id. -/
theorem key_ne_of_id_ne {α κ : Type} {key : α → κ} {t : Table α} (h : Table.HasUniqueKeys key t)
    {row row' : α} (hrow : t.get? id = some row) (hkey : key row' = key row) {r : Record α}
    (hr : r ∈ t.records) (hid : r.id ≠ id) : key r.row ≠ key row' := by
  intro hsame
  have hrecord : r = ⟨id, row⟩ :=
    h r hr _ (Table.get?_eq_some_iff.1 hrow) (hsame.trans hkey)
  rw [hrecord] at hid
  exact hid rfl

/-! ### Elements -/

theorem writeText_element {k : ElementKind} {row row' : k.Row} (hs : s.HasUniqueKeys)
    (hrow : (s.table k).get? id = some row) (hwrite : k.withText? row column text = some row')
    (hkey : k.key row' = k.key row) :
    (Change.writeText k.tableName column id text).apply s =
      (.ok 1, s.withTable k ((s.table k).update id fun _ => row')) := by
  have hcode : Change.writeText k.tableName column id text = (do
      let s ← get
      let changed ← Change.changeRow (s.table k) k.rules id fun r => k.withText? r column text
      set (s.withTable k changed.1)
      return changed.2) := by
    cases k <;> rfl
  have hchange : (Change.changeRow (s.table k) k.rules id
      fun r => k.withText? r column text).apply s =
        (.ok ((s.table k).update id fun _ => row', 1), s) := by
    refine changeRow_apply hrow hwrite fun u hu r hr hid => ?_
    obtain rfl := List.mem_singleton.1 hu
    exact beq_eq_false_iff_ne.2 (key_ne_of_id_ne (hs.elements k) hrow hkey hr hid)
  rw [hcode, Change.apply_get_bind, Change.apply_bind_ok hchange, Change.apply_set_bind]
  rfl

theorem fields_of_mem {k : ElementKind} {rows : List Fields} (h : (k.tableName, rows) ∈ s.fields) :
    rows = (s.table k).fields k.columns := by
  cases k <;>
    simpa [Store.fields, Store.tables, ElementKind.all, ElementKind.tableName, Table.fields,
      Function.comp_def] using h

theorem fields_withTable (k : ElementKind) (t : Table k.Row) : (s.withTable k t).fields =
    s.fields.map fun named =>
      (named.1, if named.1 = k.tableName then t.fields k.columns else named.2) := by
  cases k <;>
    simp [Store.fields, Store.tables, ElementKind.all, ElementKind.tableName, Store.withTable,
      Store.table, Table.fields]

/-- A text written into one field of an element is read there, and nowhere else. -/
theorem writeText_element_fields {k : ElementKind} {row row' : k.Row} {field : Field}
    (hs : s.HasUniqueKeys) (hrow : (s.table k).get? id = some row)
    (hwrite : k.withText? row column text = some row') (hkey : k.key row' = k.key row)
    (hid : column ≠ "id") (hcols : (k.columns row').read = (k.columns row).read.put column field) :
    ∃ s', (Change.writeText k.tableName column id text).apply s = (.ok 1, s') ∧
      s'.fields = withField k.tableName column id field s.fields :=
  ⟨_, writeText_element hs hrow hwrite hkey,
    fields_eq_withField hrow hid hcols (fun _ => fields_of_mem) (fields_withTable k _)⟩

/-! ### Arguments -/

theorem fields_of_mem_arguments {rows : List Fields} (h : ("arguments", rows) ∈ s.fields) :
    rows = s.arguments.fields ArgumentRow.columns := by
  simpa [Store.fields, Store.tables, ElementKind.all, ElementKind.tableName, Table.fields,
    Function.comp_def] using h

theorem writeText_arguments_fields {row row' : ArgumentRow} {field : Field} (hs : s.HasUniqueKeys)
    (hrow : s.arguments.get? id = some row) (hwrite : row.withText? column text = some row')
    (hkey : row'.key = row.key) (hid : column ≠ "id")
    (hcols : row'.columns.read = row.columns.read.put column field) :
    ∃ s', (Change.writeText "arguments" column id text).apply s = (.ok 1, s') ∧
      s'.fields = withField "arguments" column id field s.fields := by
  have hcode : Change.writeText "arguments" column id text = (do
      let s ← get
      let changed ← Change.changeRow s.arguments argumentRules id (·.withText? column text)
      set { s with arguments := changed.1 }
      return changed.2) := rfl
  -- The changed row keeps its key, so the rules hold as they did.
  have hchange : (Change.changeRow s.arguments argumentRules id (·.withText? column text)).apply s =
      (.ok (s.arguments.update id fun _ => row', 1), s) := by
    refine changeRow_apply hrow hwrite fun u hu r hr hid => ?_
    obtain rfl := List.mem_singleton.1 hu
    have hne := key_ne_of_id_ne hs.arguments hrow hkey hr hid
    simpa [ArgumentRow.key, and_assoc] using hne
  refine ⟨{ s with arguments := s.arguments.update id fun _ => row' }, ?_, ?_⟩
  · rw [hcode, Change.apply_get_bind, Change.apply_bind_ok hchange, Change.apply_set_bind]
    rfl
  · refine fields_eq_withField hrow hid hcols (fun _ => fields_of_mem_arguments) ?_
    simp [Store.fields, Store.tables, ElementKind.all, ElementKind.tableName, Store.table,
      Table.fields]

/-! ## Columns of lists -/

/-- The table has a row under the id. -/
def Store.HasRow (s : Store) (table : String) (id : Int) : Prop :=
  ∃ named ∈ s.fields, named.1 = table ∧ ∃ row ∈ named.2, Fields.HasId row id

instance (table : String) : Decidable (s.HasRow table id) :=
  inferInstanceAs (Decidable (∃ named ∈ s.fields, _))

theorem exists_row {α : Type} {t : Table α} {cols : α → Columns}
    (h : ∃ row ∈ t.fields cols, Fields.HasId row id) : ∃ row, t.get? id = some row := by
  obtain ⟨fields, hfields, hid⟩ := h
  obtain ⟨r, hr, rfl⟩ := List.mem_map.1 hfields
  obtain rfl := hasId_columns_iff.1 hid
  exact ⟨r.row, Table.get?_eq_some_iff.2 hr⟩

theorem Store.HasRow.element {k : ElementKind} (h : s.HasRow k.tableName id) :
    ∃ row, (s.table k).get? id = some row := by
  obtain ⟨⟨_, rows⟩, hrows, rfl, hrow⟩ := h
  rw [fields_of_mem hrows] at hrow
  exact exists_row hrow

theorem Store.HasRow.argument (h : s.HasRow "arguments" id) :
    ∃ row, s.arguments.get? id = some row := by
  obtain ⟨⟨_, rows⟩, hrows, rfl, hrow⟩ := h
  rw [fields_of_mem_arguments hrows] at hrow
  exact exists_row hrow

/-- A list of texts is read as it was written. Any other text in a column of lists is read too: as
the list that it spells, or as the empty list if it spells none, and all else is read as before. -/
theorem listColumns_read :
    (∀ items, TextList.read (TextList.write items) = items) ∧
    ∀ {s : Store}, s.HasUniqueKeys → ∀ {table column : String}, (table, column) ∈ listColumns →
      ∀ {id : Int}, s.HasRow table id → ∀ text : String, ∃ s' items,
        (Change.writeText table column id text).apply s = (.ok 1, s') ∧ Denotes text items ∧
        s'.fields = withField table column id (.texts items) s.fields := by
  refine ⟨TextList.read_write, fun {s} hs {table column} hcolumn {id} hid text => ?_⟩
  suffices h : ∃ s', (Change.writeText table column id text).apply s = (.ok 1, s') ∧
      s'.fields = withField table column id (.texts (TextList.read text)) s.fields by
    obtain ⟨s', happly, hfields⟩ := h
    exact ⟨s', _, happly, TextList.read_eq_iff.1 rfl, hfields⟩
  simp only [listColumns, List.mem_cons, Prod.mk.injEq, List.not_mem_nil, or_false] at hcolumn
  -- Every column has its own way into the row; what it leaves alone is read off the columns.
  rcases hcolumn with ⟨rfl, rfl⟩ | ⟨rfl, rfl⟩ | ⟨rfl, rfl⟩ | ⟨rfl, rfl⟩
  · obtain ⟨row, hrow⟩ := hid.argument
    have hwrite : row.withText? "types" text = some { row with types := text } := rfl
    exact writeText_arguments_fields hs hrow hwrite rfl (by decide)
      (by simp [ArgumentRow.columns, Columns.read, Fields.put, Cell.read])
  · obtain ⟨(row : FunctionRow), hrow⟩ := hid.element (k := .functions)
    have hwrite : ElementKind.functions.withText? row "return_types" text =
        some ({ row with returnTypes := text } : FunctionRow) := rfl
    exact writeText_element_fields (k := .functions) hs hrow hwrite rfl (by decide)
      (by simp [ElementKind.columns, FunctionRow.columns, ElementRow.leadingColumns, Columns.read,
        Fields.put, Cell.read])
  · obtain ⟨(row : ClassMethodRow), hrow⟩ := hid.element (k := .classMethods)
    have hwrite : ElementKind.classMethods.withText? row "return_types" text =
        some ({ row with returnTypes := text } : ClassMethodRow) := rfl
    exact writeText_element_fields (k := .classMethods) hs hrow hwrite rfl (by decide)
      (by simp [ElementKind.columns, ClassMethodRow.columns, MemberRow.leadingColumns,
        MemberRow.declarationColumns, MethodRow.trailingColumns, Columns.read, Fields.put,
        Cell.read])
  · obtain ⟨(row : MethodRow), hrow⟩ := hid.element (k := .interfaceMethods)
    have hwrite : ElementKind.interfaceMethods.withText? row "return_types" text =
        some ({ row with returnTypes := text } : MethodRow) := rfl
    exact writeText_element_fields (k := .interfaceMethods) hs hrow hwrite rfl (by decide)
      (by simp [ElementKind.columns, MethodRow.columns, MemberRow.leadingColumns,
        MemberRow.declarationColumns, MethodRow.trailingColumns, Columns.read, Fields.put,
        Cell.read])

/-- An array that breaks off stands in the types that a function returns. -/
theorem listColumns_read_function :
    let s := Store.oneVersion.runAll [.importDocument 1 .animals]
    let text := "[\"string\", \"int"
    s.HasRow "functions" 1 ∧ TextList.read text = [] ∧ ∃ s' items,
      (Change.writeText "functions" "return_types" 1 text).apply s = (.ok 1, s') ∧
      Denotes text items ∧ s'.fields = withField "functions" "return_types" 1 (.texts items) s.fields :=
  ⟨by decide +kernel, by decide +kernel,
    listColumns_read.2 (reachable_oneVersion.runAll _).hasUniqueKeys (by decide) (by decide +kernel) _⟩

end ApiCatalog
