import ApiCatalog.Proofs.Dictionary
import ApiCatalog.Proofs.Store.Named
import ApiCatalog.Proofs.Store.Unique
import ApiCatalog.Proofs.Text.Blank
import ApiCatalog.Store.Browse

/-!
# Everything can be browsed to

Namespaces are browsed as a tree that is kept nowhere: every level is worked out from the texts of
the namespaces in use. A text that leads to a namespace and a separator behind it is that namespace
up to one of its segments (`splitOn_append_cons`), so what the levels list are the leading parts of
the namespaces in use, one segment longer from level to level.

The lists of elements are sorted by short name. In one namespace no two elements of a kind share it,
since it is what is left of the key.
-/

namespace ApiCatalog

open Text

variable {ns above child : String} {version : Int} {s : Store} {i : Nat}

/-! ## Segments -/

/-- The parts of a namespace between its separators. -/
def segments (ns : String) : List (List Char) := splitOn '\\' ns.toList

/-- The first `i` segments of a namespace with the separators between them. -/
def leadingPart (ns : String) (i : Nat) : String := .ofList (joinWith '\\' ((segments ns).take i))

/-- No segment is empty, so no separator stands at an end or beside another one. -/
def Segmented (ns : String) : Prop := ∀ segment ∈ segments ns, segment ≠ []

/-- How documents may spell a namespace: not at all, as `global`, or by its segments, with separators
between them and at the ends. -/
def PlainNamespace (ns : String) : Prop :=
  ns = "" ∨ ns = globalNamespace ∨ ∃ before pieces after,
    (∀ c ∈ before, c = '\\') ∧ (∀ c ∈ after, c = '\\') ∧ pieces ≠ [] ∧
      (∀ piece ∈ pieces, piece ≠ [] ∧ '\\' ∉ piece) ∧
      ns.toList = before ++ (joinWith '\\' pieces ++ after)

theorem not_mem_segments {segment : List Char} (h : segment ∈ segments ns) : '\\' ∉ segment :=
  fun hmem => (mem_of_mem_splitOn h hmem).2 rfl

theorem Segmented.forall_segment (h : Segmented ns) :
    ∀ segment ∈ segments ns, segment ≠ [] ∧ '\\' ∉ segment :=
  fun segment hsegment => ⟨h segment hsegment, not_mem_segments hsegment⟩

theorem segments_ofList_joinWith {pieces : List (List Char)} (hne : pieces ≠ [])
    (hpieces : ∀ piece ∈ pieces, '\\' ∉ piece) : segments (.ofList (joinWith '\\' pieces)) = pieces := by
  rw [segments, String.toList_ofList, splitOn_joinWith hne hpieces]

theorem plainNamespace_iff : PlainNamespace ns ↔ ns = "" ∨ ns = globalNamespace ∨
    Segmented (bareNamespace ns) := by
  refine or_congr_right (or_congr_right ?_)
  constructor
  · rintro ⟨before, pieces, after, hbefore, hafter, hne, hpieces, hns⟩ segment hsegment
    rw [bareNamespace, hns, dropAround_joinWith hbefore hafter hpieces,
      segments_ofList_joinWith hne fun piece hpiece => (hpieces piece hpiece).2] at hsegment
    exact (hpieces segment hsegment).1
  · intro h
    obtain ⟨before, after, hbefore, hafter, hns⟩ := exists_dropAround '\\' ns.toList
    refine ⟨before, segments (bareNamespace ns), after, hbefore, hafter, splitOn_ne_nil _,
      h.forall_segment, ?_⟩
    rwa [segments, joinWith_splitOn, bareNamespace, String.toList_ofList]

instance : Decidable (Segmented ns) :=
  inferInstanceAs (Decidable (∀ segment ∈ segments ns, segment ≠ []))

instance : Decidable (PlainNamespace ns) := decidable_of_iff' _ plainNamespace_iff

/-- What documents spell is stored by its segments. -/
theorem PlainNamespace.segmented (h : PlainNamespace ns) : ∀ stored ∈ storedNamespace ns,
    Segmented stored := by
  intro stored hstored
  unfold storedNamespace at hstored
  split at hstored
  · cases hstored
  · next hnone =>
    obtain rfl := Option.some.inj hstored
    rcases plainNamespace_iff.1 h with hempty | hglobal | hsegmented
    · exact absurd (.inl hempty) hnone
    · exact absurd (.inr hglobal) hnone
    · exact hsegmented

/-- A namespace that is stored by its segments has no separators at its ends. -/
theorem Segmented.bareNamespace_leadingPart (h : Segmented ns) (i : Nat) :
    bareNamespace (leadingPart ns i) = leadingPart ns i := by
  have hpieces : ∀ piece ∈ (segments ns).take i, piece ≠ [] ∧ '\\' ∉ piece :=
    fun piece hpiece => h.forall_segment piece (List.mem_of_mem_take hpiece)
  have hnone : ∀ d ∈ ([] : List Char), d = '\\' := nofun
  have hbare := dropAround_joinWith hnone hnone hpieces
  rw [List.nil_append, List.append_nil] at hbare
  rw [bareNamespace, leadingPart, String.toList_ofList, hbare]

theorem leadingPart_length (ns : String) : leadingPart ns (segments ns).length = ns := by
  rw [leadingPart, List.take_length, segments, joinWith_splitOn, String.ofList_toList]

/-! ## Levels -/

theorem segments_eq_cons (cs : List Char) : ∃ more, splitOn '\\' cs = firstSegment cs :: more := by
  induction cs with
  | nil => exact ⟨[], rfl⟩
  | cons c cs ih =>
    obtain ⟨more, hmore⟩ := ih
    by_cases hc : c = '\\'
    · subst hc
      exact ⟨splitOn '\\' cs, by simp [splitOn, firstSegment]⟩
    · refine ⟨more, ?_⟩
      rw [splitOn, if_neg hc, hmore]
      simp [firstSegment, hc]

theorem ofList_firstSegment (ns : String) : .ofList (firstSegment ns.toList) = leadingPart ns 1 := by
  obtain ⟨more, hmore⟩ := segments_eq_cons ns.toList
  rw [leadingPart, segments, hmore]
  rfl

/-- What stands in front of a separator is a leading part, and the next one ends with the segment
behind it. -/
theorem leadingPart_of_append {rest : List Char} (h : ns.toList = above.toList ++ '\\' :: rest) :
    ∃ i, 1 ≤ i ∧ i < (segments ns).length ∧ above = leadingPart ns i ∧
      .ofList (above.toList ++ '\\' :: firstSegment rest) = leadingPart ns (i + 1) := by
  obtain ⟨more, hmore⟩ := segments_eq_cons rest
  have hsegments : segments ns = segments above ++ firstSegment rest :: more := by
    rw [segments, h, splitOn_append_cons, hmore, segments]
  have hne : segments above ≠ [] := splitOn_ne_nil _
  refine ⟨(segments above).length, List.length_pos_of_ne_nil hne, by simp [hsegments], ?_, ?_⟩
  · rw [leadingPart, hsegments, List.take_left, segments, joinWith_splitOn, String.ofList_toList]
  · have htake : (segments ns).take ((segments above).length + 1) =
        segments above ++ [firstSegment rest] := by
      simp [hsegments, List.take_append, List.take_of_length_le]
    rw [leadingPart, htake, joinWith_append_singleton _ hne, segments, joinWith_splitOn]

/-- Behind a leading part that is not all stand a separator and the segment that comes next. -/
theorem append_of_leadingPart (hpos : 1 ≤ i) (hi : i < (segments ns).length) :
    ∃ rest, ns.toList = (leadingPart ns i).toList ++ '\\' :: rest ∧
      firstSegment rest ∈ segments ns ∧
      leadingPart ns (i + 1) = .ofList ((leadingPart ns i).toList ++ '\\' :: firstSegment rest) := by
  have hdrop := List.drop_eq_getElem_cons hi
  have hfront : (segments ns).take i ≠ [] := by
    rw [← List.length_pos_iff, List.length_take]
    omega
  have hback : (segments ns).drop i ≠ [] := by
    rw [hdrop]
    exact List.cons_ne_nil _ _
  -- The segments that are left are those of the text behind the leading part.
  have hfirst : firstSegment (joinWith '\\' ((segments ns).drop i)) = (segments ns)[i] := by
    have hsegments : ∀ segment ∈ (segments ns).drop i, '\\' ∉ segment :=
      fun segment hsegment => not_mem_segments (List.mem_of_mem_drop hsegment)
    have hsplit := splitOn_joinWith hback hsegments
    obtain ⟨more, hmore⟩ := segments_eq_cons (joinWith '\\' ((segments ns).drop i))
    rw [hmore] at hsplit
    exact (List.cons.inj (hsplit.trans hdrop)).1
  refine ⟨joinWith '\\' ((segments ns).drop i), ?_, ?_, ?_⟩
  · rw [leadingPart, String.toList_ofList, ← joinWith_append hfront hback, List.take_append_drop,
      segments, joinWith_splitOn]
  · rw [hfirst]
    exact List.getElem_mem hi
  · rw [hfirst, leadingPart, leadingPart, String.toList_ofList,
      ← joinWith_append_singleton _ hfront, List.take_append_getElem hi]

theorem mem_ascending {texts : List String} {t : String} : t ∈ ascending texts ↔ t ∈ texts := by
  unfold ascending
  rw [Dictionary.mem_keys_ofList]
  simp

theorem pairwise_ascending (texts : List String) : (ascending texts).Pairwise (· < ·) :=
  List.pairwise_map.2 (Dictionary.ascending _)

/-- A class, interface or function of the version lies in the namespace. -/
def Store.InUse (s : Store) (version : Int) (ns : String) : Prop :=
  ∃ k, ∃ r ∈ (s.table k).records, ∃ e ∈ k.element? r.row, e.version = version ∧ e.ns = some ns

theorem mem_namespaces_iff : ns ∈ s.namespaces version ↔ s.InUse version ns := by
  simp only [Store.namespaces, Table.rows, List.mem_append, List.mem_filterMap, List.mem_map,
    Option.ite_none_right_eq_some]
  constructor
  · rintro ((⟨row, ⟨r, hr, rfl⟩, h⟩ | ⟨row, ⟨r, hr, rfl⟩, h⟩) | ⟨row, ⟨r, hr, rfl⟩, h⟩)
    · exact ⟨.classes, r, hr, _, rfl, h⟩
    · exact ⟨.interfaces, r, hr, _, rfl, h⟩
    · exact ⟨.functions, r, hr, _, rfl, h⟩
  · rintro ⟨k, r, hr, e, he, h⟩
    cases k with
    | classes =>
      cases he
      exact .inl (.inl ⟨_, ⟨r, hr, rfl⟩, h⟩)
    | interfaces =>
      cases he
      exact .inl (.inr ⟨_, ⟨r, hr, rfl⟩, h⟩)
    | functions =>
      cases he
      exact .inr ⟨_, ⟨r, hr, rfl⟩, h⟩
    | classMethods | interfaceMethods | classProperties | aliases => cases he

theorem mem_rootNamespaces_iff {root : String} : root ∈ s.rootNamespaces version ↔
    root ≠ "" ∧ ∃ ns, s.InUse version ns ∧ root = leadingPart ns 1 := by
  simp only [Store.rootNamespaces, mem_ascending, List.mem_filter, List.mem_map, mem_namespaces_iff,
    ofList_firstSegment, bne_iff_ne]
  constructor
  · rintro ⟨⟨ns, hns, rfl⟩, hne⟩
    exact ⟨hne, ns, hns, rfl⟩
  · rintro ⟨hne, ns, hns, rfl⟩
    exact ⟨⟨ns, hns, rfl⟩, hne⟩

theorem mem_childNamespaces_iff {a : String} : child ∈ s.childNamespaces version a ↔
    ∃ ns rest, s.InUse version ns ∧ ns.toList = (bareNamespace a).toList ++ '\\' :: rest ∧
      firstSegment rest ≠ [] ∧
        child = .ofList ((bareNamespace a).toList ++ '\\' :: firstSegment rest) := by
  simp only [Store.childNamespaces, mem_ascending, List.mem_filterMap, mem_namespaces_iff,
    Option.bind_eq_bind, Option.bind_eq_some_iff, dropStart?_eq_some_iff, List.append_assoc,
    List.singleton_append, Option.ite_none_left_eq_some, List.isEmpty_iff, Option.some.injEq]
  constructor
  · rintro ⟨ns, hns, rest, hrest, hne, rfl⟩
    exact ⟨ns, rest, hns, hrest, hne, rfl⟩
  · rintro ⟨ns, rest, hns, hrest, hne, rfl⟩
    exact ⟨ns, hns, rest, hrest, hne, rfl⟩

/-! ## Lists of elements -/

namespace Table

variable {α : Type} {t : Table α} {element : α → ElementRow} {place : Option String}
  {r : Record α}

/-- The records of a version in a namespace, or outside every namespace, by short name. -/
def listing (t : Table α) (element : α → ElementRow) (version : Int) (place : Option String) :
    List (Record α) :=
  let found := t.records.filter fun r =>
    (element r.row).version == version && (element r.row).ns == place
  found.mergeSort fun a b => (element a.row).shortName ≤ (element b.row).shortName

theorem mem_listing_iff : r ∈ t.listing element version place ↔
    r ∈ t.records ∧ (element r.row).version = version ∧ (element r.row).ns = place := by
  simp [listing]

/-- No record is listed twice. -/
theorem nodup_listing : (t.listing element version place).Nodup := by
  have hnodup : t.records.Nodup := List.Nodup.of_map Record.id t.nodup_ids
  exact (List.mergeSort_perm _ _).nodup_iff.2 (hnodup.filter _)

/-- Short names ascend strictly, since records of one version and namespace that share theirs would
share their keys. -/
theorem pairwise_listing (hkeys : HasUniqueKeys (fun row => (element row).key) t) :
    (t.listing element version place).Pairwise fun a b =>
      (element a.row).shortName < (element b.row).shortName := by
  have hsorted : (t.listing element version place).Pairwise fun a b =>
      (element a.row).shortName ≤ (element b.row).shortName := by
    refine (List.pairwise_mergeSort ?_ ?_ _).imp fun h => of_decide_eq_true h
    · intro a b c hab hbc
      exact decide_eq_true (String.le_trans (of_decide_eq_true hab) (of_decide_eq_true hbc))
    · intro a b
      rw [Bool.or_eq_true, decide_eq_true_iff, decide_eq_true_iff]
      exact String.le_total _ _
  -- Records of one place and one short name would have one key, and so be one record.
  refine (hsorted.and nodup_listing).imp_of_mem fun {a b} ha hb ⟨hle, hne⟩ => ?_
  obtain ⟨ha, hversion, hplace⟩ := mem_listing_iff.1 ha
  obtain ⟨hb, hversion', hplace'⟩ := mem_listing_iff.1 hb
  refine String.not_le.1 fun hge => hne (hkeys a ha b hb ?_)
  show (element a.row).key = (element b.row).key
  unfold ElementRow.key
  rw [hversion, hversion', hplace, hplace', String.le_antisymm hle hge]

/-- A record is listed once where it belongs, and nowhere else. -/
theorem count_listing [DecidableEq α] (t : Table α) (element : α → ElementRow) (version : Int)
    (place : Option String) (r : Record α) : (t.listing element version place).count r =
      if r ∈ t.records ∧ (element r.row).version = version ∧ (element r.row).ns = place then 1
      else 0 := by
  rw [nodup_listing.count]
  exact if_congr mem_listing_iff rfl rfl

end Table

/-! ## Everything that is stored -/

/-- Every class and function of a version is listed in one place, and every namespace in use is
reached level by level. -/
structure Store.Browsable (s : Store) (version : Int) : Prop where
  /-- A class is listed once: in its namespace, which may be asked for with separators at its ends,
  or outside every namespace if it has none. -/
  classes : ∀ r place, (s.classesIn version place).count r =
    if r ∈ s.classes.records ∧ r.row.version = version ∧ r.row.ns = place.map bareNamespace then 1
    else 0
  functions : ∀ r place, (s.functionsIn version place).count r =
    if r ∈ s.functions.records ∧ r.row.version = version ∧ r.row.ns = place.map bareNamespace then 1
    else 0
  /-- No segment of a namespace in use is empty, and the namespace is asked for as it is stored. -/
  segmented : ∀ ns, s.InUse version ns → Segmented ns ∧ bareNamespace ns = ns
  root : ∀ ns, s.InUse version ns → leadingPart ns 1 ∈ s.rootNamespaces version
  child : ∀ ns, s.InUse version ns → ∀ i, 1 ≤ i → i < (segments ns).length →
    leadingPart ns (i + 1) ∈ s.childNamespaces version (leadingPart ns i)
  /-- Only what leads to a namespace in use is listed, one segment below what was asked for. -/
  of_root : ∀ root ∈ s.rootNamespaces version, ∃ ns, s.InUse version ns ∧ root = leadingPart ns 1
  of_child : ∀ above, ∀ child ∈ s.childNamespaces version above, ∃ ns, s.InUse version ns ∧
    ∃ i, 1 ≤ i ∧ i < (segments ns).length ∧ bareNamespace above = leadingPart ns i ∧
      child = leadingPart ns (i + 1)
  roots_ascend : (s.rootNamespaces version).Pairwise (· < ·)
  children_ascend : ∀ above, (s.childNamespaces version above).Pairwise (· < ·)
  classes_ascend : ∀ place,
    (s.classesIn version place).Pairwise fun a b => a.row.shortName < b.row.shortName
  functions_ascend : ∀ place,
    (s.functionsIn version place).Pairwise fun a b => a.row.shortName < b.row.shortName

/-- The namespaces that are stored are kept by their segments. -/
theorem entryLaw_segmented : EntryLaw (Put.Writes PlainNamespace) fun _ r =>
    ∀ ns ∈ r.ns, Segmented ns where
  make _ ns hp hns := (hp ns hns).segmented
  refresh _ _ _ _ _ hr _ := hr

/-- Where documents spell namespaces by their segments, everything that calls have imported can be
browsed to. -/
theorem browsable_runAll {calls : List Call}
    (hcalls : ∀ c ∈ calls, ∀ ns ∈ c.namespaces, PlainNamespace ns) (version : Int) :
    (Store.runAll {} calls).Browsable version := by
  have hkeys := (Reachable.empty.runAll calls).hasUniqueKeys
  -- From here on the store is any one whose namespaces are made of segments.
  have helements := Store.EveryElement.empty.runAll entryLaw_segmented hcalls
  generalize Store.runAll {} calls = s at hkeys helements
  have hsegmented : ∀ ns, s.InUse version ns → Segmented ns := by
    rintro ns ⟨k, r, hr, e, he, -, hns⟩
    exact helements k r hr e he ns hns
  -- Field by field: the listings, then roots and children, then the order.
  constructor
  case classes =>
    exact fun r place =>
      s.classes.count_listing ClassRow.toElementRow version (place.map bareNamespace) r
  case functions =>
    exact fun r place =>
      s.functions.count_listing FunctionRow.toElementRow version (place.map bareNamespace) r
  case segmented =>
    intro ns hns
    have hbare := (hsegmented ns hns).bareNamespace_leadingPart (segments ns).length
    rw [leadingPart_length] at hbare
    exact ⟨hsegmented ns hns, hbare⟩
  case root =>
    intro ns hns
    obtain ⟨more, hmore⟩ := segments_eq_cons ns.toList
    refine mem_rootNamespaces_iff.2 ⟨fun hempty => ?_, ns, hns, rfl⟩
    rw [← ofList_firstSegment, String.ofList_eq_empty_iff] at hempty
    exact hsegmented ns hns _ (by rw [segments, hmore]; exact List.mem_cons_self) hempty
  -- A longer part of a namespace is a child of the part in front of it.
  case child =>
    intro ns hns i hpos hi
    obtain ⟨rest, hrest, hmem, hnext⟩ := append_of_leadingPart hpos hi
    have hbare := (hsegmented ns hns).bareNamespace_leadingPart i
    refine mem_childNamespaces_iff.2 ⟨ns, rest, hns, ?_, hsegmented ns hns _ hmem, ?_⟩
    · rwa [hbare]
    · rwa [hbare]
  case of_root =>
    intro root hroot
    exact (mem_rootNamespaces_iff.1 hroot).2
  case of_child =>
    intro above child hchild
    obtain ⟨ns, rest, hns, hrest, -, rfl⟩ := mem_childNamespaces_iff.1 hchild
    obtain ⟨i, hpos, hi, habove, hnext⟩ := leadingPart_of_append hrest
    exact ⟨ns, hns, i, hpos, hi, habove, hnext⟩
  case roots_ascend => exact pairwise_ascending _
  case children_ascend => exact fun above => pairwise_ascending _
  case classes_ascend =>
    exact fun _ => Table.pairwise_listing (hkeys.elements .classes)
  case functions_ascend =>
    exact fun _ => Table.pairwise_listing (hkeys.elements .functions)

/-- A document with a namespace three segments long, of whose levels only the last holds an element,
and with one that begins with the same text. -/
def Document.shop : Document where
  files := Dictionary.ofList [
    ("a.php", {
      functions := [{ name := "boot", ns := "global" }]
      classes := [{ name := "Total", ns := "\\Shop\\Cart\\Sum\\" }, { name := "Kernel", ns := "" }]
      interfaces := [{ name := "Priced", ns := "Shopping" }] })]

/-- Its elements are browsed to, level by level. -/
theorem browsable_runAll_shop :
    let calls : List Call := [.addSoftware "Library" "library", .addVersion 1 "1.0" none,
      .importDocument 1 .shop]
    let s := Store.runAll {} calls
    s.rootNamespaces 1 = ["Shop", "Shopping"] ∧ s.childNamespaces 1 "Shop" = ["Shop\\Cart"] ∧
      s.childNamespaces 1 "Shop\\Cart" = ["Shop\\Cart\\Sum"] ∧ s.Browsable 1 :=
  ⟨by decide +kernel, by decide +kernel, by decide +kernel, browsable_runAll (by decide +kernel) 1⟩

end ApiCatalog
