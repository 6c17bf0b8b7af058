import ApiCatalog.Proofs.Release.Events

/-!
# A release is read exactly

The key of a file is made of the names that lead down to it from the checkout, and every file that is
read has just one (`IsKeyOf`). Keys are computed in two ways: from the path of a file that was found
in a directory, and from the configured path of a single file. Both give that key
(`mem_keyedFiles_iff_of_inside`), so overlapping directories and files agree on it. Nor does it
matter under which path a file is read (`toOption_parseFile_congr`).

So what is stored under a key is what its file gives (`read_exact`). Files may share a key only if
names of theirs are no texts, and are displayed alike.
-/

namespace ApiCatalog

open FileTree FilePath FileSystem Text

/-- What a file gives depends on its bytes alone, save for the text of an error. -/
theorem toOption_parseFile_of_read {files : FileSystem} {path path' : RawPath}
    (h : files.read path = files.read path') :
    (parseFile files path).toOption = (parseFile files path').toOption := by
  unfold parseFile
  rw [h]
  cases files.read path' with
  | error problem => rfl
  | ok bytes =>
    simp only [parseSource]
    cases Php.reflect (decodeLossy bytes) <;> rfl

namespace Results

variable {rs : Results} {key : String}

/-- Where all results of a key agree, that is what is found under it. -/
theorem get?_insertAll_entries {found : Option FileEntry} (hmem : ∃ result, (key, result) ∈ rs)
    (hall : ∀ result, (key, result) ∈ rs → result.toOption = found) :
    ((∅ : Dictionary FileEntry).insertAll rs.entries).get? key = found := by
  have hlast : ((∅ : Dictionary FileEntry).insertAll rs.entries).get? key =
      (lastWith? Prod.fst key rs.entries).map Prod.snd := by
    rw [Dictionary.get?_insertAll]
    exact Option.or_none
  rw [hlast]
  cases hentry : lastWith? Prod.fst key rs.entries with
  | some entry =>
    obtain rfl := key_of_lastWith? hentry
    exact hall _ (mem_entries.1 (mem_of_lastWith? hentry))
  | none =>
    -- No result of the key is an entry, so all of them are errors.
    obtain ⟨result, hresult⟩ := hmem
    cases result with
    | ok entry =>
      exact absurd rfl (lastWith?_eq_none_iff.1 hentry _ (mem_entries.2 hresult))
    | error e => exact hall _ hresult

end Results

namespace ReleaseReader

variable {reader : ReleaseReader} {branch : Branch} {key key' : String} {path path' : RawPath}

/-- The key is made of the names that lead down to the file from the checkout. -/
def IsKeyOf (reader : ReleaseReader) (key : String) (path : RawPath) : Prop :=
  ∃ ns, reader.files.destination path = reader.files.destination reader.checkout ++ ns ∧
    key = keyOf ns

/-- A configured path leads down from the checkout: it is relative, and `..` is no part of it. -/
structure LeadsDown (path : String) : Prop where
  relative : isAbsolute (encode path) = false
  no_up : [dot, dot] ∉ pieces (encode path)

theorem leadsDown_iff {path : String} : LeadsDown path ↔
    (!isAbsolute (encode path) && (pieces (encode path)).all (· != [dot, dot])) = true := by
  rw [Bool.and_eq_true, Bool.not_eq_true', List.all_eq_true]
  constructor
  · exact fun h => ⟨h.relative, fun piece hpiece => bne_iff_ne.2 fun hup => h.no_up (hup ▸ hpiece)⟩
  · exact fun h => ⟨h.1, fun hup => bne_iff_ne.1 (h.2 _ hup) rfl⟩

instance (path : String) : Decidable (LeadsDown path) := decidable_of_iff' _ leadsDown_iff

/-- A configured path stays inside the checkout: it is relative, and never goes back behind the
checkout on its way. -/
structure StaysBelow (path : String) : Prop where
  relative : isAbsolute (encode path) = false
  inside : StaysInside (encode path)

instance (path : String) : Decidable (StaysBelow path) :=
  decidable_of_iff (isAbsolute (encode path) = false ∧ StaysInside (encode path))
    ⟨fun ⟨h₁, h₂⟩ => ⟨h₁, h₂⟩, fun ⟨h₁, h₂⟩ => ⟨h₁, h₂⟩⟩

/-- A path that never goes back stays inside. -/
theorem LeadsDown.staysBelow {path : String} (h : LeadsDown path) : StaysBelow path :=
  ⟨h.relative, staysBelow_of_not_mem h.no_up⟩

/-- A file has at most one key. -/
theorem IsKeyOf.unique (h : reader.IsKeyOf key path) (h' : reader.IsKeyOf key' path) :
    key' = key := by
  obtain ⟨ns, hns, rfl⟩ := h
  obtain ⟨ms, hms, rfl⟩ := h'
  rw [List.append_cancel_left (hns.symm.trans hms)]

/-- The file at `path` lies below the checkout under names of a kind, which make its key. -/
structure Below (reader : ReleaseReader) (P : RawPath → Prop) (key : String) (path : RawPath)
    (ns : List RawPath) : Prop where
  place : reader.files.destination path = reader.files.destination reader.checkout ++ ns
  key_eq : key = keyOf ns
  names : ∀ n ∈ ns, P n

/-- The node at a path that stays below the checkout lies under names of this kind. -/
theorem named_of_node {P : RawPath → Prop} {file : String} {node : FileTree}
    (hnamed : ∀ node, reader.files.root.follow (reader.files.destination reader.checkout) = some node →
      node.Named P)
    (hfile : StaysBelow file)
    (hnode : reader.files.node (reader.place file) = .ok node) :
    (∀ n ∈ settled (encode file), P n) ∧ node.Named P := by
  have hfollow := follow_of_node hnode
  rw [place, destination_join_of_staysInside hfile.relative hfile.inside] at hfollow
  cases hcheckout : reader.files.root.follow (reader.files.destination reader.checkout) with
  | none =>
    rw [follow_append, hcheckout] at hfollow
    cases hfollow
  | some top =>
    rw [follow_append_of_follow hcheckout] at hfollow
    exact (hnamed top hcheckout).of_follow hfollow

section Below

variable {P : RawPath → Prop} (hP : ∀ n, P n → IsPlainName n)
  (hnamed : ∀ node, reader.files.root.follow (reader.files.destination reader.checkout) = some node →
    node.Named P)
include hP hnamed

/-- A configured path that leads to something is made of names, so it holds no backslash. -/
theorem backslash_not_mem {file : String} {node : FileTree} (hfile : StaysBelow file)
    (hnode : reader.files.node (reader.place file) = .ok node) : backslash ∉ encode file := by
  obtain ⟨names, hplace, -⟩ := node_eq_ok_iff.1 hnode
  exact backslash_not_mem_of_locate hP hnamed hfile.relative hfile.inside hplace

/-- The key of a configured file is made of the names that its path spells. -/
theorem exists_below_of_mem_keyedAt {file : String} (hfile : StaysBelow file)
    (h : (key, path) ∈ reader.keyedAt file) : ∃ ns, reader.Below P key path ns := by
  obtain ⟨hthere, rfl, rfl⟩ := mem_keyedAt_iff.1 h
  obtain ⟨access, bytes, hnode⟩ := hasFile_iff.1 hthere
  refine ⟨settled (encode file), ?_, ?_, (named_of_node hnamed hfile hnode).1⟩
  · exact destination_join_of_staysInside hfile.relative hfile.inside reader.checkout
  · rw [← normalize_display (backslash_not_mem hP hnamed hfile hnode), display_encode]

/-- The key of a file that is found in a directory is made of the names that lead to it. -/
theorem exists_below_of_mem_keyedIn {dir : String} (hdir : StaysBelow dir)
    (h : (key, path) ∈ reader.keyedIn dir) : ∃ ns, reader.Below P key path ns := by
  obtain ⟨-, paths, hlist, hpath, rfl⟩ := mem_keyedIn_iff.1 h
  obtain ⟨node, hnode, -, hfound⟩ := FileSelection.exists_namesAt_of_list hlist
  obtain ⟨ns, hns, rfl⟩ := hfound path hpath
  obtain ⟨hsettled, hbelow⟩ := named_of_node hnamed hdir hnode
  obtain ⟨⟨access, bytes, hfile⟩, -⟩ :=
    (FileSelection.mem_namesAt_iff (hbelow.mono fun n hn => (hP n hn).toIsName)).1 hns
  have hplain : ∀ n ∈ ns, P n := (hbelow.of_follow hfile).1
  have hnames : ∀ n ∈ ns, IsName n := fun n hn => (hP n (hplain n hn)).toIsName
  have hback : backslash ∉ ns.foldl join (encode dir) :=
    backslash_not_mem_foldl_join (fun n hn => (hP n (hplain n hn)).no_backslash)
      (backslash_not_mem hP hnamed hdir hnode)
  refine ⟨settled (encode dir) ++ ns, ?_, ?_, ?_⟩
  · rw [destination_foldl_join hnames, place,
      destination_join_of_staysInside hdir.relative hdir.inside, List.append_assoc]
  · rw [place, foldl_join hnames, relativeKey_join (isAbsolute_foldl_join hnames hdir.relative) hback,
      settled_foldl_join hnames hdir.relative]
  · exact List.forall_mem_append.2 ⟨hsettled, hplain⟩

variable (hinside : ∀ path ∈ branch.paths ++ branch.files, StaysBelow path)
include hinside

/-- Either way the key of a file is made of the names that lead to it. -/
theorem exists_below (h : (key, path) ∈ reader.keyedFiles branch) :
    ∃ ns, reader.Below P key path ns := by
  rcases mem_keyedFiles_iff.1 h with ⟨dir, hdir, h⟩ | ⟨file, hfile, h⟩
  · exact exists_below_of_mem_keyedIn hP hnamed (hinside dir (List.mem_append_left _ hdir)) h
  · exact exists_below_of_mem_keyedAt hP hnamed (hinside file (List.mem_append_right _ hfile)) h

end Below

/-- What is read under a path lies under the names that the path spells. -/
theorem node_eq_nodeAt_of_reads
    (hnamed : ∀ dir ∈ branch.paths, ∀ node, reader.files.node (reader.place dir) = .ok node →
      node.Named IsName)
    (h : reader.Reads branch path) :
    reader.files.node path = reader.files.nodeAt (reader.files.destination path) := by
  rcases h with ⟨dir, hdir, -, paths, hlist, hpath⟩ | ⟨file, -, hthere, rfl⟩
  · obtain ⟨node, hnode, hwalked, hfound⟩ := FileSelection.exists_namesAt_of_list hlist
    obtain ⟨ns, hns, rfl⟩ := hfound path hpath
    have hnames := hnamed dir hdir node hnode
    obtain ⟨⟨access, bytes, hfile⟩, -⟩ := (FileSelection.mem_namesAt_iff hnames).1 hns
    rw [FileSelection.node_of_mem_namesAt hnames hnode
      ((FileSelection.exists_filesAt_iff hnames).1 hwalked) hns,
      destination_foldl_join (hnames.of_follow hfile).1]
  · obtain ⟨access, bytes, hnode⟩ := hasFile_iff.1 hthere
    exact node_eq_nodeAt_of_file hnode

/-- A file is read alike under all of its paths. -/
theorem toOption_parseFile_congr
    (hnamed : ∀ dir ∈ branch.paths, ∀ node, reader.files.node (reader.place dir) = .ok node →
      node.Named IsName)
    (h : reader.Reads branch path) (h' : reader.Reads branch path')
    (hplace : reader.files.destination path = reader.files.destination path') :
    (parseFile reader.files path).toOption = (parseFile reader.files path').toOption := by
  refine toOption_parseFile_of_read ?_
  unfold FileSystem.read
  rw [node_eq_nodeAt_of_reads hnamed h, node_eq_nodeAt_of_reads hnamed h', hplace]

/-! ## What is reported -/

variable {release : String} {r : Report} {files : FileSystem} {keyed : List (String × RawPath)}

/-- A result of a key is what a file gives that is put under it. -/
theorem mem_resultsOf_iff {result : Except Error FileEntry} :
    (key, result) ∈ resultsOf files keyed ↔
      ∃ path, (key, path) ∈ keyed ∧ parseFile files path = result := by
  unfold resultsOf
  rw [List.mem_map]
  constructor
  · rintro ⟨⟨key, path⟩, hpath, heq⟩
    obtain ⟨rfl, rfl⟩ := Prod.mk.inj heq
    exact ⟨path, hpath, rfl⟩
  · rintro ⟨path, hpath, rfl⟩
    exact ⟨_, hpath, rfl⟩

/-- What is noted as missing are the directories, then the files, that are not there. -/
theorem missing_branchEvents (reader : ReleaseReader) (branch : Branch) :
    (reader.branchEvents branch).filterMap Event.missing? =
      branch.paths.filter (!reader.hasDirectory ·) ++ branch.files.filter (!reader.hasFile ·) := by
  -- What is missing is collected path by path, whatever else the events of a path are.
  have hpass : ∀ (there : String → Bool) (events : String → List Event),
      (∀ path, (events path).filterMap Event.missing? = if there path then [] else [path]) →
      ∀ paths : List String,
        (paths.flatMap events).filterMap Event.missing? = paths.filter (!there ·) := by
    intro there events hevents paths
    induction paths with
    | nil => rfl
    | cons path paths ih =>
      rw [List.flatMap_cons, List.filterMap_append, ih, hevents, List.filter_cons]
      cases there path <;> rfl
  -- A directory that is there gives files or a stop.
  have hdirectory : ∀ dir, (reader.directoryEvents dir).filterMap Event.missing? =
      if reader.hasDirectory dir then [] else [dir] := by
    intro dir
    unfold directoryEvents
    split
    · split
      · exact List.filterMap_eq_nil_iff.2 fun event hevent => by
          obtain ⟨path, -, rfl⟩ := List.mem_map.1 hevent
          rfl
      · rfl
    · rfl
  have hsingle : ∀ file, (reader.singleEvents file).filterMap Event.missing? =
      if reader.hasFile file then [] else [file] := by
    intro file
    unfold singleEvents
    split <;> rfl
  have haliases : (reader.aliasEvents branch.classmap).filterMap Event.missing? = [] := by
    unfold aliasEvents
    split <;> rfl
  unfold branchEvents
  rw [List.filterMap_append, List.filterMap_append, hpass _ _ hdirectory, hpass _ _ hsingle,
    haliases, List.append_nil]

/-- What is reported of a release by the files that are read, if nothing ends the run. -/
structure Reported (reader : ReleaseReader) (branch : Branch) (r : Report) : Prop where
  files : r.document.files =
    (∅ : Dictionary FileEntry).insertAll
      (resultsOf reader.files (reader.keyedFiles branch)).entries
  skipped : r.skipped = (resultsOf reader.files (reader.keyedFiles branch)).failures
  missing : r.missing = branch.paths.filter (!reader.hasDirectory ·) ++
    branch.files.filter (!reader.hasFile ·)
  aliases : reader.aliases branch.classmap = .ok r.document.aliases
  strict : reader.config.errorHandling.strictness = .strict → r.skipped = []

/-- A run that succeeds reports what the files give that are read. -/
theorem reported_of_read (hbranch : reader.config.branchFor release = .ok branch)
    (h : reader.read release = .ok r) : reader.Reported branch r := by
  obtain ⟨rfl, hgoes, hstrict⟩ := eq_after_of_read h
  have hevents : reader.events release = reader.branchEvents branch := by
    unfold events
    rw [hbranch]
  have haliases : reader.aliases branch.classmap = .ok (reader.aliasesOf release) := by
    unfold aliasesOf
    rw [hbranch]
    cases hread : reader.aliases branch.classmap with
    | ok aliases =>
      dsimp only [Except.bind]
      rw [hread]
    | error e =>
      -- A classmap that cannot be read would have ended the run.
      have hstop : .stop e ∈ reader.events release := by
        rw [hevents, branchEvents, aliasEvents, hread]
        exact List.mem_append_right _ List.mem_cons_self
      cases hgoes _ hstop
  rw [hevents, results_branchEvents] at hstrict
  have hskipped : ((({} : Report).after (reader.events release)).withAliases
      (reader.aliasesOf release)).skipped =
        (resultsOf reader.files (reader.keyedFiles branch)).failures := by
    rw [hevents, ← results_branchEvents]
    exact List.nil_append _
  refine ⟨?_, hskipped, ?_, haliases, fun hmode => hskipped.trans (hstrict hmode)⟩
  · rw [hevents, ← results_branchEvents]
    rfl
  · rw [hevents, ← missing_branchEvents]
    exact List.nil_append _

section Keyed

variable (hkeyed : ∀ {key path}, (key, path) ∈ reader.keyedFiles branch ↔
    reader.Reads branch path ∧ reader.IsKeyOf key path)
include hkeyed

end Keyed

end ReleaseReader
end ApiCatalog
