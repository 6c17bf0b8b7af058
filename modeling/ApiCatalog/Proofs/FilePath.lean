import ApiCatalog.FileSystem
import ApiCatalog.Proofs.Text.Lossy

/-!
# Paths and keys

Paths can be joined in any order (`join_assoc`), and a joined path has the pieces of both
(`exists_pieces_join`). A relative path spells names of its own (`settled`), a `..` in it undoing the
name in front. A path below a root has these names, as they are displayed, for its key, however the
root is written (`relativeKey_join`). Names that are texts can be told apart by their keys
(`keyOf_inj`); others may be displayed alike.
-/

namespace ApiCatalog.FilePath

open Text

variable {path base rest name : RawPath} {ns : List RawPath}

/-- The byte of a backslash. -/
def backslash : UInt8 := 0x5C

/-- A name that an entry of a directory can have. A backslash is a byte like others there, and so
is one that is no text. -/
structure IsName (name : RawPath) : Prop where
  ne_empty : name ≠ []
  ne_dot : name ≠ [dot]
  ne_up : name ≠ [dot, dot]
  no_slash : slash ∉ name

instance (name : RawPath) : Decidable (IsName name) :=
  decidable_of_iff (name ≠ [] ∧ name ≠ [dot] ∧ name ≠ [dot, dot] ∧ slash ∉ name)
    ⟨fun ⟨h₁, h₂, h₃, h₄⟩ => ⟨h₁, h₂, h₃, h₄⟩, fun ⟨h₁, h₂, h₃, h₄⟩ => ⟨h₁, h₂, h₃, h₄⟩⟩

/-- A name that is not cut in a key. -/
structure IsPlainName (name : RawPath) : Prop extends IsName name where
  no_backslash : backslash ∉ name

instance (name : RawPath) : Decidable (IsPlainName name) :=
  decidable_of_iff (IsName name ∧ backslash ∉ name)
    ⟨fun ⟨h₁, h₂⟩ => ⟨h₁, h₂⟩, fun ⟨h₁, h₂⟩ => ⟨h₁, h₂⟩⟩

/-- The bytes are those of a text. -/
def IsText (bytes : List UInt8) : Prop := ∃ s, bytes = encode s

/-- The names that a path spells below the place that it starts from. -/
def settled (path : RawPath) : List RawPath := (pieces path).foldl turn []

/-- The key that names make. -/
def keyOf (ns : List RawPath) : String := display (joinWith slash ns)

/-! ## What is displayed -/

/-- The bytes of the path signs are those of their characters. -/
theorem slash_eq : slash = asciiByte '/' := rfl

theorem dot_eq : dot = asciiByte '.' := rfl

/-- A path is displayed by decoding its bytes. -/
@[simp] theorem toList_display (path : RawPath) : (display path).toList = decodeLossy path := by
  simp [display]

/-- A text comes back as it is. -/
@[simp] theorem display_encode (s : String) : display (encode s) = s := by
  rw [← String.toList_inj, toList_display]
  exact decodeWith_encode _ s

/-- The bytes of a text come back from its characters. -/
theorem IsText.flatMap_decodeLossy (h : IsText path) :
    (decodeLossy path).flatMap String.utf8EncodeChar = path := by
  obtain ⟨s, rfl⟩ := h
  rw [decodeLossy, decodeWith_encode]
  rfl

/-- A display in which nothing is replaced tells the path. -/
theorem display_eq_iff {s : String} (h : '\ufffd' ∉ s.toList) : display path = s ↔ path = encode s := by
  rw [← String.toList_inj, toList_display]
  exact decodeLossy_eq_iff h

/-! ## Names -/

/-- An empty path has an empty piece. -/
theorem pieces_ne_nil (path : RawPath) : pieces path ≠ [] := splitOn_ne_nil path

/-- Separators stand between pieces and in none of them. -/
theorem slash_not_mem_pieces {piece : RawPath} (h : piece ∈ pieces path) : slash ∉ piece :=
  fun hmem => (mem_of_mem_splitOn h hmem).2 rfl

/-- An empty piece and the two dotted ones name no entry. -/
theorem isEntryName_iff : isEntryName name = true ↔ name ≠ [] ∧ name ≠ [dot] ∧ name ≠ [dot, dot] := by
  simp [isEntryName, and_assoc]

/-- A name is a piece that names an entry. -/
theorem isName_iff : IsName name ↔ isEntryName name = true ∧ slash ∉ name := by
  rw [isEntryName_iff]
  exact ⟨fun ⟨h₁, h₂, h₃, h₄⟩ => ⟨⟨h₁, h₂, h₃⟩, h₄⟩, fun ⟨⟨h₁, h₂, h₃⟩, h₄⟩ => ⟨h₁, h₂, h₃, h₄⟩⟩

/-- A name is a path of one piece. -/
theorem pieces_of_isName (h : IsName name) : pieces name = [name] := splitOn_of_not_mem h.no_slash

/-- A path is absolute by its first byte. -/
theorem isAbsolute_iff : isAbsolute path = true ↔ path.head? = some slash := by
  simp [isAbsolute]

/-- A name is no absolute path. -/
theorem relative_of_isName (h : IsName name) : isAbsolute name = false := by
  rw [Bool.eq_false_iff, ne_eq, isAbsolute_iff]
  exact fun hfirst => h.no_slash (List.mem_of_mem_head? hfirst)

/-- What is put together with separators comes apart again. -/
theorem pieces_joinWith (hne : ns ≠ []) (h : ∀ n ∈ ns, slash ∉ n) :
    pieces (joinWith slash ns) = ns := splitOn_joinWith hne h

/-- What comes apart is put together again. -/
theorem joinWith_pieces (path : RawPath) : joinWith slash (pieces path) = path :=
  joinWith_splitOn path

/-- An empty piece stays where it is. -/
@[simp] theorem turn_nil (names : List RawPath) : turn names [] = names := by simp [turn]

@[simp] theorem turn_dot (names : List RawPath) : turn names [dot] = names := by simp [turn]

/-- Two dots go back, and stay at the root. -/
@[simp] theorem turn_up (names : List RawPath) : turn names [dot, dot] = names.dropLast := by
  simp [turn, dot]

/-- Any other piece goes down. -/
theorem turn_of_isEntryName (h : isEntryName name = true) (names : List RawPath) :
    turn names name = names ++ [name] := by
  obtain ⟨hempty, hdot, hup⟩ := isEntryName_iff.1 h
  simp [turn, hempty, hdot, hup]

/-! ## Joining -/

/-- The path with a separator at its end. -/
def asDirectory (base : RawPath) : RawPath :=
  if base.getLast? = some slash then base else base ++ [slash]

/-- Joining puts a separator between the two paths, unless one is there. -/
theorem join_eq (hrest : isAbsolute rest = false) (hbase : base ≠ []) :
    join base rest = asDirectory base ++ rest := by
  unfold join asDirectory
  rw [hrest, Bool.false_or, if_neg (by simpa using hbase)]
  split
  · rfl
  · simp

/-- Only the end of a path matters to it. -/
theorem asDirectory_append (front : RawPath) (hrest : rest ≠ []) :
    asDirectory (front ++ rest) = front ++ asDirectory rest := by
  obtain ⟨init, last, rfl⟩ := (List.eq_nil_or_concat' rest).resolve_left hrest
  unfold asDirectory
  rw [← List.append_assoc, List.getLast?_concat, List.getLast?_concat]
  split <;> simp

/-- A separator at the end is not put there again. -/
theorem asDirectory_asDirectory (base : RawPath) :
    asDirectory (asDirectory base) = asDirectory base := by
  have hends : (asDirectory base).getLast? = some slash := by
    unfold asDirectory
    split
    · assumption
    · exact List.getLast?_concat
  rw [asDirectory, if_pos hends]

/-- A relative path is joined with one separator in front of it. -/
theorem exists_join (hrest : isAbsolute rest = false) (hbase : base ≠ []) :
    ∃ front, join base rest = front ++ slash :: rest ∧
      (base = front ∨ base = front ++ [slash]) := by
  rw [join_eq hrest hbase, asDirectory]
  split
  · next hlast =>
    obtain ⟨front, rfl⟩ := List.getLast?_eq_some_iff.1 hlast
    exact ⟨front, by simp, .inr rfl⟩
  · exact ⟨base, by simp, .inl rfl⟩

/-- Nothing in front of a path changes nothing. -/
@[simp] theorem join_nil_left (rest : RawPath) : join [] rest = rest := by
  simp [join]

/-- Joining keeps a path absolute or relative. -/
theorem isAbsolute_join (hrest : isAbsolute rest = false) (hbase : base ≠ []) :
    isAbsolute (join base rest) = isAbsolute base := by
  rw [join_eq hrest hbase]
  obtain ⟨b, base, rfl⟩ := List.exists_cons_of_ne_nil hbase
  unfold asDirectory
  split <;> rfl

/-- Joining adds the pieces of the second path; an empty last piece of the first one is gone. -/
theorem exists_pieces_join (hrest : isAbsolute rest = false) (hbase : base ≠ []) :
    ∃ front, pieces (join base rest) = front ++ pieces rest ∧
      (pieces base = front ∨ pieces base = front ++ [[]]) := by
  obtain ⟨front, hjoin, hfront⟩ := exists_join hrest hbase
  refine ⟨pieces front, ?_, ?_⟩
  · rw [pieces, hjoin, splitOn_append_cons]
    rfl
  · rcases hfront with rfl | rfl
    · exact .inl rfl
    · exact .inr (splitOn_append_cons front [])

/-- An absolute path takes the place of the one it is joined to. -/
theorem join_absolute (base : RawPath) (hrest : isAbsolute rest = true) : join base rest = rest := by
  simp [join, hrest]

/-- The second path is part of the result. -/
theorem join_ne_nil (hrest : rest ≠ []) (base : RawPath) : join base rest ≠ [] := by
  unfold join
  split
  · exact hrest
  split <;> simp [hrest]

theorem join_ne_nil_of_base (hbase : base ≠ []) (rest : RawPath) : join base rest ≠ [] := by
  unfold join
  split
  · next h =>
    rcases Bool.or_eq_true_iff.1 h with h | h
    · rintro rfl
      cases h
    · exact absurd (List.isEmpty_iff.1 h) hbase
  split <;> simp [hbase]

/-- It does not matter in which order three paths are joined. -/
theorem join_assoc (base middle : RawPath) (hrest : isAbsolute rest = false) :
    join (join base middle) rest = join base (join middle rest) := by
  by_cases hbase : base = []
  · rw [hbase, join_nil_left, join_nil_left]
  by_cases hempty : middle = []
  · subst hempty
    have hne : asDirectory base ≠ [] := by
      unfold asDirectory
      split <;> simp [hbase]
    rw [join_nil_left, join_eq rfl hbase, List.append_nil, join_eq hrest hne,
      asDirectory_asDirectory, join_eq hrest hbase]
  have hstart := isAbsolute_join hrest hempty
  cases habsolute : isAbsolute middle with
  | true =>
    rw [join_absolute base habsolute, join_absolute base (hstart.trans habsolute)]
  | false =>
    have hne : asDirectory base ++ middle ≠ [] := by simp [hempty]
    rw [join_eq habsolute hbase, join_eq (hstart.trans habsolute) hbase, join_eq hrest hempty,
      join_eq hrest hne, asDirectory_append _ hempty, List.append_assoc]

/-- Names that are joined one after the other can be joined first. -/
theorem foldl_join (hns : ∀ n ∈ ns, IsName n) (base path : RawPath) :
    ns.foldl join (join base path) = join base (ns.foldl join path) := by
  induction ns generalizing path with
  | nil => rfl
  | cons n ns ih =>
    rw [List.foldl_cons, List.foldl_cons,
      join_assoc _ _ (relative_of_isName (hns n List.mem_cons_self))]
    exact ih (fun m hm => hns m (List.mem_cons_of_mem _ hm)) (join path n)

/-- Names behind a relative path leave it relative. -/
theorem isAbsolute_foldl_join (hns : ∀ n ∈ ns, IsName n) (hbase : isAbsolute base = false) :
    isAbsolute (ns.foldl join base) = false := by
  induction ns generalizing base with
  | nil => exact hbase
  | cons name ns ih =>
    obtain ⟨hname, hns⟩ := List.forall_mem_cons.1 hns
    refine ih hns ?_
    by_cases hempty : base = []
    · rw [hempty, join_nil_left]
      exact relative_of_isName hname
    · rw [isAbsolute_join (relative_of_isName hname) hempty]
      exact hbase

/-- Names without backslashes bring none into a path. -/
theorem backslash_not_mem_foldl_join (hns : ∀ n ∈ ns, backslash ∉ n) (hbase : backslash ∉ base) :
    backslash ∉ ns.foldl join base := by
  induction ns generalizing base with
  | nil => exact hbase
  | cons name ns ih =>
    obtain ⟨hname, hns⟩ := List.forall_mem_cons.1 hns
    refine ih hns ?_
    have hslash : backslash ≠ slash := by decide
    unfold join
    split
    · exact hname
    split <;> simp [hname, hbase, hslash]

/-! ## Components -/

/-- The first component may be the root or the place itself; all others are names. -/
theorem components_eq {first : RawPath} {more : List RawPath} (hpath : path ≠ [])
    (h : pieces path = first :: more) :
    components path = (if first = [] then [slash] else first) :: named more := by
  have hsplit : splitOn slash path = first :: more := h
  unfold components
  rw [hsplit]
  simp only [List.isEmpty_iff, if_neg hpath]
  split <;> rfl

/-- Pieces are left out one by one. -/
theorem named_append (ps qs : List RawPath) : named (ps ++ qs) = named ps ++ named qs :=
  List.filter_append ..

/-- No name is left out. -/
theorem named_of_isName (hns : ∀ n ∈ ns, IsName n) : named ns = ns := by
  refine List.filter_eq_self.2 fun n hn => ?_
  simp [(hns n hn).ne_empty, (hns n hn).ne_dot]

/-- The components of a joined path are those of its parts. -/
theorem components_join (hrest : isAbsolute rest = false) (hbase : base ≠ []) :
    components (join base rest) = components base ++ named (pieces rest) := by
  obtain ⟨front, hjoin, hfront⟩ := exists_pieces_join hrest hbase
  have hne : front ≠ [] ∨ pieces base = [[]] := by
    rcases hfront with hfront | hfront
    · exact .inl fun hnil => pieces_ne_nil base (hfront.trans hnil)
    · by_cases hnil : front = []
      · exact .inr (by rw [hfront, hnil]; rfl)
      · exact .inl hnil
  have hfrontne : front ≠ [] := hne.resolve_right fun hempty => hbase (by
    rw [← joinWith_pieces base, hempty]
    rfl)
  obtain ⟨first, more, rfl⟩ := List.exists_cons_of_ne_nil hfrontne
  rw [List.cons_append] at hjoin hfront
  rw [components_eq (join_ne_nil_of_base hbase rest) hjoin, named_append]
  rcases hfront with hfront | hfront
  · rw [components_eq hbase hfront, List.cons_append]
  · rw [components_eq hbase hfront, named_append]
    simp [named]

/-- A name at the end of a path is its last component. -/
theorem getLast?_components (hlast : (pieces path).getLast? = some name)
    (hname : isEntryName name = true) : (components path).getLast? = some name := by
  obtain ⟨hempty, hdot, -⟩ := isEntryName_iff.1 hname
  have hpath : path ≠ [] := by
    rintro rfl
    exact hempty (Option.some.inj hlast).symm
  obtain ⟨init, hpieces⟩ := List.getLast?_eq_some_iff.1 hlast
  cases init with
  | nil =>
    rw [components_eq hpath hpieces, if_neg hempty]
    rfl
  | cons first more =>
    rw [List.cons_append] at hpieces
    have hkept : named [name] = [name] := by simp [named, hempty, hdot]
    rw [components_eq hpath hpieces, named_append, hkept, ← List.cons_append, List.getLast?_concat]

/-- A name adds one component. -/
theorem components_join_name (hname : IsName name) (hbase : base ≠ []) :
    components (join base name) = components base ++ [name] := by
  rw [components_join (relative_of_isName hname) hbase, pieces_of_isName hname,
    named_of_isName (List.forall_mem_singleton.2 hname)]

/-- Joining names adds a component for each. -/
theorem components_foldl_join (hns : ∀ n ∈ ns, IsName n) (hbase : base ≠ []) :
    components (ns.foldl join base) = components base ++ ns := by
  induction ns generalizing base with
  | nil => exact (List.append_nil _).symm
  | cons name ns ih =>
    have hname := hns name List.mem_cons_self
    rw [List.foldl_cons, ih (fun n hn => hns n (List.mem_cons_of_mem _ hn))
      (join_ne_nil_of_base hbase name), components_join_name hname hbase, List.append_assoc]
    rfl

/-! ## Keys -/

/-- Decoding neither makes a piece empty nor a piece that is not. -/
theorem decodeLossy_eq_nil_iff : decodeLossy path = [] ↔ path = [] :=
  decodeLossy_eq_iff (s := "") (by decide)

theorem decodeLossy_eq_dot_iff : decodeLossy path = ['.'] ↔ path = [dot] :=
  decodeLossy_eq_iff (s := ".") (by decide)

theorem decodeLossy_eq_up_iff : decodeLossy path = ['.', '.'] ↔ path = [dot, dot] :=
  decodeLossy_eq_iff (s := "..") (by decide)

/-- The pieces of a displayed path are worked out as those of the path. -/
theorem step_map_decodeLossy (done : List RawPath) (piece : RawPath) :
    step (done.map decodeLossy) (decodeLossy piece) = (turn done piece).map decodeLossy := by
  unfold step turn
  simp only [Bool.or_eq_true, List.isEmpty_iff, beq_iff_eq, decodeLossy_eq_nil_iff,
    decodeLossy_eq_dot_iff, decodeLossy_eq_up_iff]
  split
  · rfl
  split
  · rw [List.map_dropLast]
  · rw [List.map_append]
    rfl

/-- So following decoded pieces is decoding what they lead to. -/
theorem foldl_step_map_decodeLossy (ps done : List RawPath) :
    (ps.map decodeLossy).foldl step (done.map decodeLossy) =
      (ps.foldl turn done).map decodeLossy := by
  induction ps generalizing done with
  | nil => rfl
  | cons p ps ih => rw [List.map_cons, List.foldl_cons, step_map_decodeLossy, ih, List.foldl_cons]

/-- Without backslashes nothing is turned around. -/
theorem forwardSlashes_of_not_mem {cs : List Char} (h : '\\' ∉ cs) : forwardSlashes cs = cs := by
  refine (List.map_congr_left fun c hc => if_neg ?_).trans (List.map_id' _)
  rintro rfl
  exact h hc

/-- The key of a path without backslashes is made of the names that it spells. -/
theorem normalize_display (hback : backslash ∉ path) :
    normalize (display path) = keyOf (settled path) := by
  have hchars : '\\' ∉ decodeLossy path := mt (mem_decodeLossy_iff (by decide)).1 hback
  have hpieces : splitOn '/' (decodeLossy path) = (pieces path).map decodeLossy :=
    splitOn_decodeLossy (by decide) path
  have hsteps := foldl_step_map_decodeLossy (pieces path) []
  unfold normalize normalComponents keyOf display
  rw [String.toList_ofList, forwardSlashes_of_not_mem hchars, hpieces, ← settled] at *
  rw [List.map_nil] at hsteps
  rw [hsteps, slash_eq, joinWith_decodeLossy (by decide)]

/-- Pieces that say nothing are no part of what is spelled. -/
theorem foldl_turn_named (ps names : List RawPath) :
    (named ps).foldl turn names = ps.foldl turn names := by
  unfold named
  induction ps generalizing names with
  | nil => rfl
  | cons p ps ih =>
    by_cases hskip : p = [] ∨ p = [dot]
    · rw [List.filter_cons_of_neg (by rcases hskip with rfl | rfl <;> simp), ih, List.foldl_cons,
        turn, if_pos hskip]
    · obtain ⟨hempty, hdot⟩ := not_or.1 hskip
      rw [List.filter_cons_of_pos (by simp [hempty, hdot]), List.foldl_cons, List.foldl_cons, ih]

/-- A relative path starts with a piece that is not empty. -/
theorem exists_pieces_of_relative (hrelative : isAbsolute path = false) (hne : path ≠ []) :
    ∃ first more, pieces path = first :: more ∧ first ≠ [] := by
  obtain ⟨b, rest, rfl⟩ := List.exists_cons_of_ne_nil hne
  have hslash : b ≠ slash := by
    rintro rfl
    cases hrelative
  unfold pieces
  rw [splitOn, if_neg hslash]
  split
  · exact ⟨_, _, rfl, by simp⟩
  · exact ⟨_, _, rfl, by simp⟩

/-- What is behind a root spells the same names, however the root is written. -/
theorem exists_below (hrest : isAbsolute rest = false) (base : RawPath) :
    ∃ ps, below? base (join base rest) = some ps ∧ ps ⊆ pieces rest ∧
      ps.foldl turn [] = settled rest := by
  have hnamed : ∀ ps : List RawPath, named ps ⊆ ps := fun ps => List.filter_sublist.subset
  by_cases hbase : base = []
  · subst hbase
    rw [join_nil_left]
    refine ⟨components rest, by simp [below?, components, splitOn], ?_⟩
    by_cases hempty : rest = []
    · subst hempty
      simp [components, splitOn, settled, pieces]
    · obtain ⟨first, more, hsplit, hfirst⟩ := exists_pieces_of_relative hrest hempty
      rw [components_eq hempty hsplit, if_neg hfirst, settled, hsplit, List.foldl_cons,
        foldl_turn_named, List.foldl_cons]
      exact ⟨List.cons_subset_cons _ (hnamed more), rfl⟩
  · refine ⟨named (pieces rest), ?_, hnamed _, foldl_turn_named _ _⟩
    simp [below?, components_join hrest hbase]

/-- The key of a path below a root is made of the names that it spells behind the root. -/
theorem relativeKey_join (hrest : isAbsolute rest = false) (hback : backslash ∉ rest)
    (base : RawPath) : relativeKey (join base rest) base = keyOf (settled rest) := by
  obtain ⟨ps, hbelow, hsubset, hsettled⟩ := exists_below hrest base
  have hslash : ∀ p ∈ ps, slash ∉ p := fun p hp => slash_not_mem_pieces (hsubset hp)
  have hplain : backslash ∉ joinWith slash ps := by
    intro hmem
    rcases mem_joinWith hmem with hmem | ⟨p, hp, hmem⟩
    · cases hmem
    · exact hback (mem_of_mem_splitOn (hsubset hp) hmem).1
  have hwhole : settled (joinWith slash ps) = settled rest := by
    rw [← hsettled, settled]
    by_cases hne : ps = []
    · subst hne
      rfl
    · rw [pieces_joinWith hne hslash]
  unfold relativeKey
  simp only [hbelow]
  rw [normalize_display hplain, hwhole]

/-- Names that are texts can be told apart by their keys. -/
theorem keyOf_inj {ms : List RawPath} (hns : ∀ n ∈ ns, IsName n ∧ IsText n)
    (hms : ∀ m ∈ ms, IsName m ∧ IsText m) (h : keyOf ns = keyOf ms) : ns = ms := by
  have hpieces : ∀ {ks : List RawPath}, (∀ k ∈ ks, IsName k ∧ IsText k) →
      ∀ p ∈ ks.map decodeLossy, p ≠ [] ∧ '/' ∉ p := by
    intro ks hks p hp
    obtain ⟨k, hk, rfl⟩ := List.mem_map.1 hp
    exact ⟨mt decodeLossy_eq_nil_iff.1 (hks k hk).1.ne_empty,
      mt (mem_decodeLossy_iff (by decide)).1 (hks k hk).1.no_slash⟩
  unfold keyOf at h
  rw [← String.toList_inj, toList_display, toList_display, slash_eq,
    joinWith_decodeLossy (by decide), joinWith_decodeLossy (by decide)] at h
  have hmap := joinWith_inj (hpieces hns) (hpieces hms) h
  have hback : ∀ {ks : List RawPath}, (∀ k ∈ ks, IsName k ∧ IsText k) →
      (ks.map decodeLossy).map (·.flatMap String.utf8EncodeChar) = ks := by
    intro ks hks
    rw [List.map_map]
    refine (List.map_congr_left fun k hk => ?_).trans (List.map_id' _)
    exact (hks k hk).2.flatMap_decodeLossy
  rw [← hback hns, hmap, hback hms]

end ApiCatalog.FilePath
