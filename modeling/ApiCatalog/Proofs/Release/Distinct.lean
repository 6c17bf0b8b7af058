import ApiCatalog.Proofs.FilePath.NormalForm
import ApiCatalog.Proofs.Release.Exact

/-!
# Every file has a key of its own

A key is a normal form of what is displayed of a path, and paths of different files may have one
key: a name that holds a backslash reads like two names, names that are no texts are displayed
alike, a `..` that leads above the top is dropped, and so is the root of an absolute path. Names
that are texts without backslashes stand for themselves, though. So below one directory different
files have different keys (`exists_relativeKey`), and below a checkout, among paths that stay
inside, a key names one place. No entry is then lost to another one (`files_kept`).
-/

namespace ApiCatalog

namespace FilePath

open Text

variable {root top : RawPath} {ns ms : List RawPath}

/-- A name that stands for itself in a key. -/
structure IsKeyName (name : RawPath) : Prop extends IsPlainName name where
  text : IsText name

/-! ## Keys below one directory -/

/-- The keys of the files below a directory end with the names that lead down to them, and are the
same in front of these, unless the document is about a directory further down. -/
theorem exists_relativeKey (hroot : root ≠ [])
    (htop : ∀ rest, below? root top = some rest → rest = []) :
    ∃ front : List (List Char), ∀ ns : List RawPath, (∀ n ∈ ns, IsPlainName n) →
      ∃ path, relativeKey (ns.foldl join root) top = normalize path ∧
        normalComponents path.toList = front ++ ns.map decodeLossy := by
  -- Every path below the root has the components of the root in front.
  have hcomponents : ∀ ns : List RawPath, (∀ n ∈ ns, IsPlainName n) →
      components (ns.foldl join root) = components root ++ ns :=
    fun ns hns => components_foldl_join (fun n hn => (hns n hn).toIsName) hroot
  -- If the root lies below the top, the rest of it stands in front of every key;
  -- else the whole root does.
  by_cases hbelow : components top <+: components root
  · obtain ⟨more, hmore⟩ := hbelow
    refine ⟨normalComponents (joinWith '/' (more.map decodeLossy)), fun ns hns => ?_⟩
    refine ⟨display (joinWith slash (more ++ ns)), ?_, ?_⟩
    · have hrest : below? top (ns.foldl join root) = some (more ++ ns) := by
        simp [below?, hcomponents ns hns, ← hmore, List.append_assoc]
      unfold relativeKey
      rw [hrest]
    · rw [toList_display, slash_eq, joinWith_decodeLossy (by decide), List.map_append,
        normalComponents_joinWith_append hns]
  · refine ⟨normalComponents (decodeLossy root), fun ns hns => ⟨display (ns.foldl join root), ?_, ?_⟩⟩
    · have hnone : below? top (ns.foldl join root) = none := by
        unfold below?
        rw [hcomponents ns hns]
        refine if_neg fun hprefix => hbelow ?_
        have hwhole := List.isPrefixOf_iff_prefix.1 hprefix
        rcases List.prefix_or_prefix_of_prefix hwhole (List.prefix_append _ _) with
          h | ⟨more, hmore⟩
        · exact h
        · -- The document would be about a directory below the root.
          have hfurther : below? root top = some more := by
            simp [below?, ← hmore]
          rw [htop _ hfurther, List.append_nil] at hmore
          exact ⟨[], by rw [List.append_nil, hmore]⟩
      unfold relativeKey
      rw [hnone]
    · rw [toList_display, normalComponents_foldl_join hns hroot]

/-- Below one directory names are told by the keys of their files. -/
theorem relativeKey_inj (hroot : root ≠ [])
    (htop : ∀ rest, below? root top = some rest → rest = [])
    (hns : ∀ n ∈ ns, IsKeyName n) (hms : ∀ m ∈ ms, IsKeyName m)
    (h : relativeKey (ns.foldl join root) top = relativeKey (ms.foldl join root) top) :
    ns = ms := by
  obtain ⟨front, hkeys⟩ := exists_relativeKey hroot htop
  obtain ⟨path, hpath, hnames⟩ := hkeys ns fun n hn => (hns n hn).toIsPlainName
  obtain ⟨path', hpath', hnames'⟩ := hkeys ms fun m hm => (hms m hm).toIsPlainName
  rw [hpath, hpath'] at h
  have hsame := normalComponents_inj h
  rw [hnames, hnames'] at hsame
  have hback : ∀ {ks : List RawPath}, (∀ k ∈ ks, IsKeyName k) →
      (ks.map decodeLossy).map (·.flatMap String.utf8EncodeChar) = ks := by
    intro ks hks
    rw [List.map_map]
    refine (List.map_congr_left fun k hk => ?_).trans (List.map_id' _)
    exact (hks k hk).text.flatMap_decodeLossy
  rw [← hback hns, List.append_cancel_left hsame, hback hms]

end FilePath

open FilePath FileTree FileSystem ReleaseReader Text

variable {files : FileSystem} {selection : FileSelection} {root path : RawPath} {node : FileTree}
  {entries : Dictionary FileEntry} {keyed : List (String × RawPath)}

/-! ## Entries that are kept -/

/-- Of files under keys none is lost to another one in a dictionary of entries. -/
structure Kept (files : FileSystem) (keyed : List (String × RawPath))
    (entries : Dictionary FileEntry) : Prop where
  /-- Paths that share a key lead to one place. -/
  apart : ∀ key path path', (key, path) ∈ keyed → (key, path') ∈ keyed →
    files.destination path = files.destination path'
  /-- Each file that can be read has its entry under its key. -/
  present : ∀ key path entry, (key, path) ∈ keyed → parseFile files path = .ok entry →
    entries.get? key = some entry

/-- Where paths under one key lead to one place and are read alike, every entry is kept. -/
theorem kept_of_apart
    (happart : ∀ key path path', (key, path) ∈ keyed → (key, path') ∈ keyed →
      files.destination path = files.destination path' ∧
        (parseFile files path).toOption = (parseFile files path').toOption) :
    Kept files keyed ((∅ : Dictionary FileEntry).insertAll (resultsOf files keyed).entries) := by
  refine ⟨fun key path path' h h' => (happart key path path' h h').1,
    fun key path entry hpath hentry => ?_⟩
  refine Results.get?_insertAll_entries
    ⟨.ok entry, mem_resultsOf_iff.2 ⟨path, hpath, hentry⟩⟩ fun result hresult => ?_
  obtain ⟨path', hpath', rfl⟩ := mem_resultsOf_iff.1 hresult
  rw [(happart key path' path hpath' hpath).2, hentry]
  rfl

/-! ## One directory -/

/-- The files of a directory whose document is about no directory further down have keys of their
own: paths under one key are one path. -/
theorem eq_of_mem_found {reader : ReleaseReader} (hroot : reader.files.node root = .ok node)
    (hnamed : node.Named IsKeyName)
    (htop : ∀ rest, below? root reader.checkout = some rest → rest = []) {paths : List RawPath}
    (hlist : reader.selection.list reader.files root = .ok paths) {key : String}
    {path path' : RawPath} (h : (key, path) ∈ paths.map reader.found)
    (h' : (key, path') ∈ paths.map reader.found) : path = path' := by
  obtain ⟨node', hroot', -, hfound⟩ := FileSelection.exists_namesAt_of_list hlist
  obtain rfl := Except.ok.inj (hroot.symm.trans hroot')
  -- What is listed lies below the root by names that can be keys.
  have hnames : ∀ path ∈ paths, ∃ ns : List RawPath,
      (∀ n ∈ ns, IsKeyName n) ∧ path = ns.foldl join root := by
    intro path hpath
    obtain ⟨ns, hns, rfl⟩ := hfound path hpath
    obtain ⟨⟨access, bytes, hfile⟩, -⟩ := (FileSelection.mem_namesAt_iff
      (hnamed.mono fun n hn => hn.toIsName)).1 hns
    exact ⟨ns, (hnamed.of_follow hfile).1, rfl⟩
  obtain ⟨_, hpath, heq⟩ := List.mem_map.1 h
  obtain ⟨hkey, rfl⟩ := Prod.mk.inj heq
  obtain ⟨_, hpath', heq'⟩ := List.mem_map.1 h'
  obtain ⟨hkey', rfl⟩ := Prod.mk.inj heq'
  obtain ⟨ns, hns, rfl⟩ := hnames _ hpath
  obtain ⟨ms, hms, rfl⟩ := hnames _ hpath'
  -- Equal keys come from equal names, hence from one path.
  rw [relativeKey_inj (ne_nil_of_node hroot) htop hns hms (hkey.trans hkey'.symm)]

/-- A directory that is read without failure gives the results of its files. -/
theorem exists_list_of_parseDirectory {reader : ReleaseReader}
    (h : parseDirectory reader.selection reader.files root reader.checkout = .ok entries) :
    ∃ paths, reader.selection.list reader.files root = .ok paths ∧
      entries = (∅ : Dictionary FileEntry).insertAll
        (resultsOf reader.files (paths.map reader.found)).entries := by
  unfold parseDirectory at h
  obtain ⟨paths, hlist, h⟩ := bind_eq_ok_iff.1 h
  obtain ⟨gathered, hgathered, h⟩ := bind_eq_ok_iff.1 h
  refine ⟨paths, hlist, ?_⟩
  rw [mapM_parseKeyed] at hgathered
  dsimp only at hgathered
  split at hgathered
  · obtain rfl := Except.ok.inj hgathered
    rw [← results_map_fileEvent, List.map_map]
    exact (Except.ok.inj h).symm
  · cases hgathered

/-! ## A release -/

/-- No file that is read is lost to another one: neither in the entries of a directory whose
document is about no directory further down, nor in the report of a release whose configured paths
stay inside the checkout, if all names there are texts without backslashes. -/
theorem files_kept (reader : ReleaseReader) :
    (∀ root node entries, reader.files.node root = .ok node → node.Named IsKeyName →
      (∀ rest, below? root reader.checkout = some rest → rest = []) →
      parseDirectory reader.selection reader.files root reader.checkout = .ok entries →
      ∃ paths, reader.selection.list reader.files root = .ok paths ∧
        Kept reader.files (paths.map reader.found) entries) ∧
    ∀ release branch r, reader.config.branchFor release = .ok branch →
      (∀ path ∈ branch.paths ++ branch.files, StaysBelow path) →
      (∀ node, reader.files.root.follow (reader.files.destination reader.checkout) = some node →
        node.Named IsKeyName) →
      reader.read release = .ok r →
      Kept reader.files (reader.keyedFiles branch) r.document.files := by
  -- The first part is about one directory, the second about a whole reading.
  constructor
  · intro root node entries hroot hnamed htop hparse
    obtain ⟨paths, hlist, rfl⟩ := exists_list_of_parseDirectory hparse
    refine ⟨paths, hlist, kept_of_apart fun key path path' hpath hpath' => ?_⟩
    obtain rfl := eq_of_mem_found hroot hnamed htop hlist hpath hpath'
    exact ⟨rfl, rfl⟩
  · intro release branch r hbranch hinside hnamed hread
    rw [(reported_of_read hbranch hread).files]
    have hplain : ∀ n, IsKeyName n → IsPlainName n := fun _ hn => hn.toIsPlainName
    have hdirectories : ∀ dir ∈ branch.paths, ∀ node,
        reader.files.node (reader.place dir) = .ok node → node.Named IsName :=
      fun dir hdir node hnode =>
        (named_of_node hnamed (hinside dir (List.mem_append_left _ hdir)) hnode).2.mono
          fun _ hn => hn.toIsName
    -- Two files with one key lie below the checkout by the same names, so they are one file.
    refine kept_of_apart fun key path path' hpath hpath' => ?_
    obtain ⟨ns, hns⟩ := exists_below hplain hnamed hinside hpath
    obtain ⟨ms, hms⟩ := exists_below hplain hnamed hinside hpath'
    have hsame := keyOf_inj (fun n hn => ⟨(hns.names n hn).toIsName, (hns.names n hn).text⟩)
      (fun n hn => ⟨(hms.names n hn).toIsName, (hms.names n hn).text⟩)
      (hns.key_eq.symm.trans hms.key_eq)
    have hplace : reader.files.destination path = reader.files.destination path' := by
      rw [hns.place, hms.place, hsame]
    exact ⟨hplace, toOption_parseFile_congr hdirectories (reads_iff.2 ⟨key, hpath⟩)
      (reads_iff.2 ⟨key, hpath'⟩) hplace⟩

/-- A checkout with two directories. -/
def yard : FileTree := .directory {} [
  (encode "doc", .directory {} [(encode "b.php", .file {} (encode "<?php class B \x7b\x7d"))]),
  (encode "lib", .directory {} [(encode "a.php", .file {} (encode "<?php class A \x7b\x7d"))])]

theorem named_yard : yard.Named IsKeyName := by
  have hkey : ∀ {s : String}, IsPlainName (encode s) → IsKeyName (encode s) :=
    fun {s} h => ⟨h, s, rfl⟩
  have hone : ∀ {s : String} {bytes : List UInt8}, IsPlainName (encode s) →
      (FileTree.directory {} [(encode s, .file {} bytes)]).Named IsKeyName := fun h =>
    .directory {} (List.nodup_singleton _) (List.forall_mem_singleton.2 (hkey h))
      (List.forall_mem_singleton.2 (.file _ _))
  exact .directory {} (by decide +kernel)
    (List.forall_mem_cons.2 ⟨hkey (by decide +kernel),
      List.forall_mem_singleton.2 (hkey (by decide +kernel))⟩)
    (List.forall_mem_cons.2 ⟨hone (by decide +kernel),
      List.forall_mem_singleton.2 (hone (by decide +kernel))⟩)

/-- A directory and a file, on paths that go back up. -/
def yardBranch : Branch where
  paths := ["lib/../doc/."]
  files := ["doc/../lib/a.php"]

/-- The reader of the checkout. -/
def yardReader : ReleaseReader where
  config := { branches := .ofList [("3", yardBranch)] }
  selection := { extension := "php", exclusions := [] }
  files := { root := yard }
  checkout := []

/-- Both files are in the document of the directory and in that of the release. -/
theorem files_kept_yard :
    (∃ entries paths, parseDirectory yardReader.selection yardReader.files [dot] [] = .ok entries ∧
      yardReader.selection.list yardReader.files [dot] = .ok paths ∧
      Kept yardReader.files (paths.map yardReader.found) entries) ∧
    ∃ r, yardReader.read "3.9" = .ok r ∧
      Kept yardReader.files (yardReader.keyedFiles yardBranch) r.document.files := by
  constructor
  -- The root and the top are one place, and neither is further down.
  · have hparse : (parseDirectory yardReader.selection yardReader.files [dot] []).toOption.isSome =
        true := by decide +kernel
    have hroot : yardReader.files.node [dot] = .ok yard := by rfl
    have htop : ∀ rest, below? [dot] yardReader.checkout = some rest → rest = [] := by
      intro rest hrest
      cases hrest
    cases hentries : parseDirectory yardReader.selection yardReader.files [dot] [] with
    | error e =>
      rw [hentries] at hparse
      cases hparse
    | ok entries =>
      obtain ⟨paths, hlist, hkept⟩ :=
        (files_kept yardReader).1 _ _ _ hroot named_yard htop hentries
      exact ⟨entries, paths, rfl, hlist, hkept⟩
  · have hread : (yardReader.read "3.9").toOption.isSome = true := by decide +kernel
    have hbranch : yardReader.config.branchFor "3.9" = .ok yardBranch := by rfl
    have hinside : ∀ path ∈ yardBranch.paths ++ yardBranch.files, StaysBelow path := by
      decide +kernel
    have hnamed : ∀ node, yardReader.files.root.follow
        (yardReader.files.destination yardReader.checkout) = some node → node.Named IsKeyName := by
      intro node hnode
      cases hnode
      exact named_yard
    cases hr : yardReader.read "3.9" with
    | error e =>
      rw [hr] at hread
      cases hread
    | ok r => exact ⟨r, rfl, (files_kept yardReader).2 _ _ _ hbranch hinside hnamed hr⟩

/-! ## Keys that are shared -/

/-- Files at two places under one key are not kept. -/
theorem not_kept_of_mem {key : String} {path path' : RawPath} (hpath : (key, path) ∈ keyed)
    (hpath' : (key, path') ∈ keyed) (hne : files.destination path ≠ files.destination path') :
    ¬ Kept files keyed entries :=
  fun hkept => hne (hkept.apart key path path' hpath hpath')

/-- A checkout beside which there lies a directory that it has as well. -/
def street : FileSystem := .ofList [
  ("co/lib/a.php", .file {} (encode "<?php class A \x7b\x7d")),
  ("lib/a.php", .file {} (encode "<?php class B \x7b\x7d"))]

/-- Both directories are read. -/
def streetBranch : Branch where
  paths := ["../lib", "lib"]

/-- The reader of the checkout. -/
def streetReader : ReleaseReader where
  config := { branches := .ofList [("3", streetBranch)] }
  selection := { extension := "php", exclusions := [] }
  files := street
  checkout := encode "co"

/-- A directory with a name that holds a backslash. -/
def slashes : FileSystem := .ofList [
  ("a/b.php", .file {} (encode "<?php class A \x7b\x7d")),
  ("a\\b.php", .file {} (encode "<?php class B \x7b\x7d"))]

/-- The reader of the directory. -/
def slashesReader : ReleaseReader where
  config := {}
  selection := { extension := "php", exclusions := [] }
  files := slashes
  checkout := [dot]

/-- A path that leads out of the checkout and a name that holds a backslash make one key for two
files, and one of the entries is lost. -/
theorem not_files_kept :
    (∃ r, streetReader.read "3.9" = .ok r ∧
      ¬ Kept street (streetReader.keyedFiles streetBranch) r.document.files) ∧
    ∃ entries paths, parseDirectory slashesReader.selection slashes [dot] [dot] = .ok entries ∧
      slashesReader.selection.list slashes [dot] = .ok paths ∧
      ¬ Kept slashes (paths.map slashesReader.found) entries := by
  constructor
  · have hread : (streetReader.read "3.9").toOption.isSome = true := by decide +kernel
    cases hr : streetReader.read "3.9" with
    | error e =>
      rw [hr] at hread
      cases hread
    | ok r =>
      -- Both files are keyed `lib/a.php`, and one of them is gone.
      have houtside : ("lib/a.php", encode "co/../lib/a.php") ∈
          streetReader.keyedFiles streetBranch := by decide +kernel
      have hinside : ("lib/a.php", encode "co/lib/a.php") ∈
          streetReader.keyedFiles streetBranch := by decide +kernel
      exact ⟨r, rfl, not_kept_of_mem houtside hinside (by decide +kernel)⟩
  · have hparse : (parseDirectory slashesReader.selection slashes [dot] [dot]).toOption.isSome =
        true := by decide +kernel
    -- The two paths differ in their separator, and the key has both as slashes.
    have hlist : (slashesReader.selection.list slashes [dot]).toOption =
        some [encode "./a/b.php", encode "./a\\b.php"] := by decide +kernel
    cases hentries : parseDirectory slashesReader.selection slashes [dot] [dot] with
    | error e =>
      rw [hentries] at hparse
      cases hparse
    | ok entries =>
      cases hpaths : slashesReader.selection.list slashes [dot] with
      | error e =>
        rw [hpaths] at hlist
        cases hlist
      | ok paths =>
        rw [hpaths] at hlist
        obtain rfl := Option.some.inj hlist
        have hplain : ("a/b.php", encode "./a/b.php") ∈
            [encode "./a/b.php", encode "./a\\b.php"].map slashesReader.found := by
          decide +kernel
        have hslash : ("a/b.php", encode "./a\\b.php") ∈
            [encode "./a/b.php", encode "./a\\b.php"].map slashesReader.found := by
          decide +kernel
        exact ⟨entries, _, rfl, rfl, not_kept_of_mem hplain hslash (by decide +kernel)⟩

end ApiCatalog
