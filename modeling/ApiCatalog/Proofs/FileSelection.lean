import ApiCatalog.FileSelection
import ApiCatalog.Proofs.FileSystem.Write
import Mathlib.Data.List.Sort

/-!
# What a walk finds

A walk goes through a tree and passes whole directories over, yet what it finds can be told from
each file alone: from the names that lead down to it, in which no step may be hidden and no
directory may be version control's (`mem_namesAt_iff`). It ends early just if it comes to a
directory that cannot be listed, or that lies in one which may not be entered
(`exists_filesAt_iff`).

So the wanted files are listed, each once, and sorted by the components of their paths
(`list_wanted`).
-/

namespace ApiCatalog

open FilePath FileTree FileSystem Text

namespace FileSelection

variable {node : FileTree} {entries : Entries} {access : Access} {root path name : RawPath}
  {ns : List RawPath} {fs : FileSystem}

/-! ## What is passed over -/

/-- The name starts with a dot. -/
def IsHidden (name : RawPath) : Prop := name.head? = some dot

/-- Version control keeps its data in directories of the name. -/
def IsVersionControl (name : RawPath) : Prop := ∃ word ∈ versionControlNames, name = encode word

/-- The dot of a hidden name is a byte of its own, so decoding keeps it. -/
theorem startsWith_display_iff : (display name).startsWith "." = true ↔ IsHidden name := by
  have hfirst : (display name).startsWith "." = true ↔ (decodeLossy name).head? = some '.' := by
    rw [String.startsWith_string_iff, toList_display]
    exact List.singleton_prefix_iff_head?_eq_some
  rw [hfirst, IsHidden, dot_eq, head?_decodeLossy_iff (by decide)]

/-- The names of directories of version control are texts, so no other name is displayed like them.
-/
theorem mem_versionControlNames_iff :
    display name ∈ versionControlNames ↔ IsVersionControl name := by
  have htexts : ∀ word ∈ versionControlNames, '\ufffd' ∉ word.toList := by decide
  constructor
  · exact fun h => ⟨_, h, (display_eq_iff (htexts _ h)).1 rfl⟩
  · rintro ⟨word, hword, rfl⟩
    rwa [display_encode]

/-- A file is passed over if it is hidden. -/
theorem isIgnored_file {bytes : List UInt8} :
    isIgnored name (.file access bytes) = false ↔ ¬IsHidden name := by
  rw [← startsWith_display_iff]
  simp [isIgnored, isDirectory]

/-- A directory may be one of version control, too. -/
theorem isIgnored_directory :
    isIgnored name (.directory access entries) = false ↔ ¬IsHidden name ∧ ¬IsVersionControl name := by
  rw [← startsWith_display_iff, ← mem_versionControlNames_iff]
  simp [isIgnored, isDirectory]

/-! ## Which files are found -/

mutual

/-- The names that lead down to the files at and below a node, as far as nothing on the way is
passed over. -/
def namesAt : FileTree → List (List RawPath)
  | .file .. => [[]]
  | .directory _ entries => namesBelow entries

/-- The names that lead down to the files at and below the entries of a directory. -/
def namesBelow : Entries → List (List RawPath)
  | [] => []
  | (name, node) :: rest =>
    (if isIgnored name node then [] else (namesAt node).map (name :: ·)) ++ namesBelow rest

end

/-- One entry that is not passed over, and then the rest. -/
theorem filesBelow_cons_eq_ok_iff {bar : Option FileProblem} {paths : List RawPath}
    (hkept : isIgnored name node = false) :
    filesBelow root bar ((name, node) :: entries) = .ok paths ↔
      (node.isDirectory = true → bar = none) ∧ ∃ found more, filesAt (join root name) node = .ok found ∧
        filesBelow root bar entries = .ok more ∧ found ++ more = paths := by
  -- Whatever the bar says, an entry that is kept is read and the entries behind it are.
  have hrest : (filesAt (join root name) node >>= fun found => do
        return found ++ (← filesBelow root bar entries)) = .ok paths ↔
      ∃ found more, filesAt (join root name) node = .ok found ∧
        filesBelow root bar entries = .ok more ∧ found ++ more = paths := by
    rw [bind_eq_ok_iff]
    refine exists_congr fun found => ?_
    rw [bind_eq_ok_iff, ← exists_and_left]
    exact exists_congr fun more => and_congr_right fun _ => and_congr_right fun _ =>
      ⟨Except.ok.inj, congrArg Except.ok⟩
  rw [filesBelow, if_neg (by simp [hkept])]
  -- Only a directory is asked whether its parent may be entered.
  cases hdirectory : node.isDirectory with
  | false => exact hrest.trans (and_iff_right nofun).symm
  | true =>
    cases bar with
    | none => exact hrest.trans (and_iff_right fun _ => rfl).symm
    | some problem =>
      constructor
      · intro h
        cases h
      · rintro ⟨hbar, -⟩
        cases hbar rfl

mutual

/-- The paths of the files that are found are made of these names. -/
theorem eq_of_filesAt {root : RawPath} :
    ∀ {node paths}, filesAt root node = .ok paths → paths = (namesAt node).map (·.foldl join root)
  | .file .., _, h => by
    rw [filesAt] at h
    exact (Except.ok.inj h).symm
  | .directory access entries, _, h => by
    rw [filesAt] at h
    split at h
    · cases h
    · exact eq_of_filesBelow h

theorem eq_of_filesBelow {root : RawPath} {bar : Option FileProblem} :
    ∀ {entries paths}, filesBelow root bar entries = .ok paths →
      paths = (namesBelow entries).map (·.foldl join root)
  | [], _, h => (Except.ok.inj h).symm
  | (name, node) :: rest, _, h => by
    rw [namesBelow, List.map_append]
    by_cases hkept : isIgnored name node = true
    · rw [filesBelow, if_pos hkept] at h
      rw [if_pos hkept, eq_of_filesBelow h]
      rfl
    · obtain ⟨-, found, more, hfound, hmore, rfl⟩ :=
        (filesBelow_cons_eq_ok_iff (by simpa using hkept)).1 h
      rw [if_neg hkept, eq_of_filesAt hfound, eq_of_filesBelow hmore, List.map_map]
      rfl

end

/-- Names lead to a file below entries if they lead on from one that is not passed over. -/
theorem mem_namesBelow_iff : ns ∈ namesBelow entries ↔
    ∃ e ∈ entries, isIgnored e.1 e.2 = false ∧ ∃ ms ∈ namesAt e.2, ns = e.1 :: ms := by
  induction entries with
  | nil => simp [namesBelow]
  | cons e entries ih =>
    obtain ⟨name, node⟩ := e
    rw [namesBelow, List.mem_append, ih]
    constructor
    · rintro (h | ⟨e, he, hfound⟩)
      · split at h
        · cases h
        · next hkept =>
          obtain ⟨ms, hms, rfl⟩ := List.mem_map.1 h
          exact ⟨_, List.mem_cons_self, by simpa using hkept, ms, hms, rfl⟩
      · exact ⟨e, List.mem_cons_of_mem _ he, hfound⟩
    · rintro ⟨e, he, hkept, ms, hms, rfl⟩
      rcases List.mem_cons.1 he with rfl | he
      · refine .inl ?_
        rw [if_neg (by simp [hkept])]
        exact List.mem_map.2 ⟨ms, hms, rfl⟩
      · exact .inr ⟨e, he, hkept, ms, hms, rfl⟩

/-- Nothing on the way down to a file is passed over: no name is hidden, and no directory is one in
which version control keeps its data. -/
structure Shown (ns : List RawPath) : Prop where
  visible : ∀ n ∈ ns, ¬IsHidden n
  plain : ∀ n ∈ ns.dropLast, ¬IsVersionControl n

/-- No name stands in the way of the root. -/
theorem shown_nil : Shown [] := ⟨nofun, nofun⟩

/-- The name of a file only has to be shown. -/
theorem shown_singleton : Shown [name] ↔ ¬IsHidden name :=
  ⟨fun h => h.visible name List.mem_cons_self, fun h => ⟨by simpa using h, nofun⟩⟩

/-- That of a directory must not be one of version control, either. -/
theorem shown_cons_cons {next : RawPath} : Shown (name :: next :: ns) ↔
    (¬IsHidden name ∧ ¬IsVersionControl name) ∧ Shown (next :: ns) := by
  constructor
  · rintro ⟨hvisible, hplain⟩
    rw [List.dropLast_cons_cons] at hplain
    exact ⟨⟨hvisible _ List.mem_cons_self, hplain _ List.mem_cons_self⟩,
      fun n hn => hvisible n (List.mem_cons_of_mem _ hn),
      fun n hn => hplain n (List.mem_cons_of_mem _ hn)⟩
  · rintro ⟨⟨hname, hdirectory⟩, hvisible, hplain⟩
    refine ⟨List.forall_mem_cons.2 ⟨hname, hvisible⟩, ?_⟩
    rw [List.dropLast_cons_cons]
    exact List.forall_mem_cons.2 ⟨hdirectory, hplain⟩

/-- An entry is passed over, or its file is shown under one name more. -/
theorem shown_cons_iff {bytes : List UInt8} (hfile : node.follow ns = some (.file access bytes)) :
    Shown (name :: ns) ↔ isIgnored name node = false ∧ Shown ns := by
  cases ns with
  | nil =>
    rw [follow_nil] at hfile
    cases hfile
    rw [shown_singleton, isIgnored_file]
    exact (and_iff_left shown_nil).symm
  | cons next ns =>
    -- More names lead on from here, so this is a directory.
    cases node with
    | file access' b => cases hfile
    | directory access' es => rw [shown_cons_cons, isIgnored_directory]

/-- A file is found just if the names that lead down to it show it. -/
theorem mem_namesAt_iff (h : node.Named IsName) : ns ∈ namesAt node ↔
    (∃ access bytes, node.follow ns = some (.file access bytes)) ∧ Shown ns := by
  -- On the tree: a name is found below an entry just if it is found in it, with the entry not
  -- ignored.
  induction h generalizing ns with
  | file access bytes =>
    rw [namesAt, List.mem_singleton]
    constructor
    · rintro rfl
      exact ⟨⟨access, bytes, follow_nil _⟩, shown_nil⟩
    · rintro ⟨⟨_, _, hfile⟩, -⟩
      exact (follow_file hfile).1
  | @directory access entries unique names nodes ih =>
    rw [namesAt, mem_namesBelow_iff]
    constructor
    · rintro ⟨e, he, hkept, ms, hms, rfl⟩
      obtain ⟨⟨access', bytes, hfile⟩, hshown⟩ := (ih e he).1 hms
      refine ⟨⟨access', bytes, ?_⟩, (shown_cons_iff hfile).2 ⟨hkept, hshown⟩⟩
      rw [follow_directory, lookup?_of_mem unique he]
      exact hfile
    -- The empty way leads to the directory itself, which is no file.
    · rintro ⟨⟨access', bytes, hfile⟩, hshown⟩
      cases ns with
      | nil =>
        rw [follow_nil] at hfile
        cases hfile
      | cons name ms =>
        obtain ⟨child, hlookup, hbelow⟩ := Option.bind_eq_some_iff.1 hfile
        have he := mem_of_lookup? hlookup
        obtain ⟨hkept, hrest⟩ := (shown_cons_iff hbelow).1 hshown
        exact ⟨_, he, hkept, ms, (ih _ he).2 ⟨⟨access', bytes, hbelow⟩, hrest⟩, rfl⟩

mutual

/-- No file is found twice. -/
theorem nodup_namesAt : ∀ {node : FileTree}, node.Named IsName → (namesAt node).Nodup
  | .file .., _ => List.nodup_singleton _
  | .directory .., h => nodup_namesBelow (named_directory_iff.1 h)

/-- No names are found twice: entries have different names. -/
theorem nodup_namesBelow : ∀ {entries : Entries}, GoodEntries IsName (Named IsName) entries →
    (namesBelow entries).Nodup
  | [], _ => List.nodup_nil
  | (name, node) :: rest, h => by
    obtain ⟨hname, hunique⟩ := List.nodup_cons.1 h.unique
    have hrest : GoodEntries IsName (Named IsName) rest :=
      ⟨hunique, fun e he => h.names e (List.mem_cons_of_mem _ he),
        fun e he => h.nodes e (List.mem_cons_of_mem _ he)⟩
    rw [namesBelow]
    refine List.Nodup.append ?_ (nodup_namesBelow hrest) fun ns hns hmore => ?_
    · split
      · exact List.nodup_nil
      · exact (nodup_namesAt (h.nodes _ List.mem_cons_self)).map (List.cons_injective)
    · split at hns
      · cases hns
      · obtain ⟨ms, -, rfl⟩ := List.mem_map.1 hns
        obtain ⟨e, he, -, _, -, hcons⟩ := mem_namesBelow_iff.1 hmore
        obtain ⟨hsame, -⟩ := List.cons.inj hcons
        exact hname (List.mem_map.2 ⟨e, he, hsame.symm⟩)

end

/-! ## Where a walk ends early -/

/-- Every directory that a walk comes to can be listed, and may be entered if there is another one
to come to in it. -/
def CanBeWalked (node : FileTree) : Prop :=
  ∀ ns access entries, node.follow ns = some (.directory access entries) →
    (∀ n ∈ ns, ¬IsHidden n ∧ ¬IsVersionControl n) →
      access.read = none ∧ ∀ e ∈ entries, isIgnored e.1 e.2 = false → e.2.isDirectory = true →
        access.enter = none

/-- A file needs no walk. -/
theorem canBeWalked_file {bytes : List UInt8} : CanBeWalked (.file access bytes) := by
  intro ns access' entries hfollow
  cases (follow_file hfollow).2

/-- A directory has to be listed, and to be entered if it has directories. -/
theorem canBeWalked_directory_iff (hunique : (entries.map Prod.fst).Nodup) :
    CanBeWalked (.directory access entries) ↔ access.read = none ∧
      ∀ e ∈ entries, isIgnored e.1 e.2 = false →
        (e.2.isDirectory = true → access.enter = none) ∧ CanBeWalked e.2 := by
  -- A directory that is walked hands the condition down: any way below an entry is one below it.
  constructor
  · intro h
    obtain ⟨hread, henter⟩ := h [] access entries (follow_nil _) nofun
    refine ⟨hread, fun e he hkept => ⟨henter e he hkept, fun ns access' entries' hfollow hns => ?_⟩⟩
    obtain ⟨name, node⟩ := e
    cases node with
    | file _ _ => cases (follow_file hfollow).2
    | directory _ _ =>
      refine h (name :: ns) access' entries' ?_
        (List.forall_mem_cons.2 ⟨isIgnored_directory.1 hkept, hns⟩)
      rw [follow_directory, lookup?_of_mem hunique he]
      exact hfollow
  -- A way of no steps ends at the directory itself; any other one goes through an entry first.
  · rintro ⟨hread, hentries⟩ ns access' entries' hfollow hns
    cases ns with
    | nil =>
      rw [follow_nil] at hfollow
      cases hfollow
      exact ⟨hread, fun e he hkept => (hentries e he hkept).1⟩
    | cons name ns =>
      obtain ⟨child, hlookup, hbelow⟩ := Option.bind_eq_some_iff.1 hfollow
      obtain ⟨hname, hns⟩ := List.forall_mem_cons.1 hns
      have hkept : isIgnored name child = false := by
        cases child with
        | file _ _ => cases (follow_file hbelow).2
        | directory _ _ => exact isIgnored_directory.2 hname
      exact (hentries _ (mem_of_lookup? hlookup) hkept).2 ns access' entries' hbelow hns

/-- A walk of entries succeeds if that of each does that is not passed over. -/
theorem exists_filesBelow_iff {bar : Option FileProblem} :
    (∃ paths, filesBelow root bar entries = .ok paths) ↔
      ∀ e ∈ entries, isIgnored e.1 e.2 = false →
        (e.2.isDirectory = true → bar = none) ∧ ∃ found, filesAt (join root e.1) e.2 = .ok found := by
  induction entries with
  | nil => simp [filesBelow]
  | cons e entries ih =>
    obtain ⟨name, node⟩ := e
    rw [List.forall_mem_cons, ← ih]
    by_cases hkept : isIgnored name node = false
    · simp only [filesBelow_cons_eq_ok_iff hkept]
      constructor
      · rintro ⟨_, hbar, found, more, hfound, hmore, rfl⟩
        exact ⟨fun _ => ⟨hbar, found, hfound⟩, more, hmore⟩
      · rintro ⟨hfirst, more, hmore⟩
        obtain ⟨hbar, found, hfound⟩ := hfirst hkept
        exact ⟨_, hbar, found, more, hfound, hmore, rfl⟩
    · rw [filesBelow, if_pos (by simpa using hkept)]
      simp [hkept]

/-- A walk ends early just if it comes to a directory that stops it. -/
theorem exists_filesAt_iff (h : node.Named IsName) :
    (∃ paths, filesAt root node = .ok paths) ↔ CanBeWalked node := by
  induction h generalizing root with
  | file access bytes => exact ⟨fun _ => canBeWalked_file, fun _ => ⟨_, by rw [filesAt]⟩⟩
  | @directory access entries unique names nodes ih =>
    rw [canBeWalked_directory_iff unique, filesAt]
    cases access.read with
    | some problem => simp
    | none =>
      dsimp only
      rw [exists_filesBelow_iff, and_iff_right rfl]
      exact forall₂_congr fun e he => imp_congr_right fun _ => and_congr_right fun _ => ih e he

mutual

/-- The error of a walk says where it ended. -/
theorem exists_walk_of_filesAt_error {root : RawPath} :
    ∀ {node e}, filesAt root node = .error e → ∃ path problem, e = .walk path problem
  | .file .., _, h => by
    rw [filesAt] at h
    cases h
  | .directory access entries, _, h => by
    rw [filesAt] at h
    split at h
    · exact ⟨_, _, (Except.error.inj h).symm⟩
    · exact exists_walk_of_filesBelow_error h

theorem exists_walk_of_filesBelow_error {root : RawPath} {bar : Option FileProblem} :
    ∀ {entries e}, filesBelow root bar entries = .error e → ∃ path problem, e = .walk path problem
  | [], _, h => by
    rw [filesBelow] at h
    cases h
  | (name, node) :: rest, e, h => by
    -- Reading the entry and the entries behind it: the error is one of theirs.
    have hread : (filesAt (join root name) node >>= fun found => do
        return found ++ (← filesBelow root bar rest)) = .error e →
        ∃ path problem, e = .walk path problem := by
      intro h
      cases hfound : filesAt (join root name) node with
      | error e' =>
        rw [hfound] at h
        obtain rfl := Except.error.inj h
        exact exists_walk_of_filesAt_error hfound
      | ok found =>
        rw [hfound] at h
        cases hmore : filesBelow root bar rest with
        | error e' =>
          rw [hmore] at h
          obtain rfl := Except.error.inj h
          exact exists_walk_of_filesBelow_error hmore
        | ok more =>
          rw [hmore] at h
          cases h
    rw [filesBelow] at h
    split at h
    · exact exists_walk_of_filesBelow_error h
    · cases hdirectory : node.isDirectory with
      | false =>
        rw [hdirectory] at h
        exact hread h
      | true =>
        rw [hdirectory] at h
        -- Or it is the one of the directory that may not be entered.
        cases bar with
        | none => exact hread h
        | some problem => exact ⟨_, _, (Except.error.inj h).symm⟩

end

/-! ## What is listed -/

variable {s : FileSelection} {paths : List RawPath}

/-- The order of paths is that of their components. -/
theorem insertInOrder_eq (path : RawPath) (paths : List RawPath) :
    insertInOrder path paths = paths.orderedInsert (components · ≤ components ·) path := by
  induction paths with
  | nil => rfl
  | cons first rest ih => rw [insertInOrder, List.orderedInsert_cons, ih]

/-- Sorting is the sorting by insertion of the library. -/
theorem sort_eq (paths : List RawPath) :
    sort paths = paths.insertionSort (components · ≤ components ·) := by
  unfold sort List.insertionSort
  rw [funext₂ insertInOrder_eq]

/-- Sorting neither brings nor loses a path. -/
theorem perm_sort (paths : List RawPath) : (sort paths).Perm paths := by
  rw [sort_eq]
  exact List.perm_insertionSort _ _

/-- The result ascends, whatever order the paths were in. -/
theorem pairwise_sort (paths : List RawPath) :
    (sort paths).Pairwise fun p q => components p ≤ components q := by
  have htotal : Std.Total fun p q : RawPath => components p ≤ components q :=
    ⟨fun p q => List.le_total (components p) (components q)⟩
  have htrans : IsTrans RawPath fun p q => components p ≤ components q :=
    ⟨fun _ _ _ h h' => List.le_trans h h'⟩
  rw [sort_eq]
  exact List.pairwise_insertionSort _ _

/-- Of the files that are found those are listed that are wanted, sorted. -/
theorem list_eq_ok_iff : s.list fs root = .ok paths ↔
    ∃ node found, fs.node root = .ok node ∧ filesAt root node = .ok found ∧
      sort (found.filter (s.wants root)) = paths := by
  unfold list
  cases fs.node root with
  | error problem => simp
  | ok node =>
    dsimp only
    rw [bind_eq_ok_iff]
    constructor
    · rintro ⟨found, hfound, h⟩
      exact ⟨node, found, rfl, hfound, Except.ok.inj h⟩
    · rintro ⟨_, found, ⟨⟩, hfound, rfl⟩
      exact ⟨found, hfound, rfl⟩

/-- Listing fails with the error of a walk, and no other. -/
theorem exists_walk_of_list_error {e : Error} (h : s.list fs root = .error e) :
    ∃ path problem, e = .walk path problem := by
  unfold list at h
  split at h
  · exact ⟨_, _, (Except.error.inj h).symm⟩
  · next node _ =>
    cases hfound : filesAt root node with
    | error e' =>
      rw [hfound] at h
      obtain rfl := Except.error.inj h
      exact exists_walk_of_filesAt_error hfound
    | ok found =>
      rw [hfound] at h
      cases h

/-- A walk can enter all directories down to the one of a file that it finds. -/
theorem walk_of_canBeWalked {names front : List RawPath} {last : RawPath} {bytes : List UInt8}
    (hnamed : node.Named IsName) (hwalk : CanBeWalked node)
    (hplace : fs.root.follow names = some node)
    (hfile : node.follow (front ++ [last]) = some (.file access bytes))
    (hshown : Shown (front ++ [last])) : fs.walk names front = .ok (names ++ front) := by
  -- Along the directories in front of the file, each of which has been walked into.
  induction front generalizing node names with
  | nil => rw [List.append_nil]; rfl
  | cons name front ih =>
    cases node with
    | file access' b => cases hfile
    | directory access' entries =>
      have hentries := named_directory_iff.1 hnamed
      obtain ⟨child, hlookup, hbelow⟩ := Option.bind_eq_some_iff.1 hfile
      have he := mem_of_lookup? hlookup
      obtain ⟨hkept, hrest⟩ := (shown_cons_iff hbelow).1 hshown
      obtain ⟨henter, hchild⟩ := ((canBeWalked_directory_iff hentries.unique).1 hwalk).2 _ he hkept
      -- The entry is a directory, because the way goes on behind it.
      have hdirectory : child.isDirectory = true := by
        have hne : front ++ [last] ≠ [] := by simp
        have hbelow : follow ([] ++ (front ++ [last])) child = some (.file access bytes) := hbelow
        obtain ⟨_, _, hnode⟩ := exists_directory_of_follow hne hbelow
        rw [follow_nil] at hnode
        cases hnode
        rfl
      have hnext : fs.root.follow (names ++ [name]) = some child := by
        rw [follow_append_of_follow hplace, follow_singleton, hlookup]
      have hstep : fs.step names name = .ok (names ++ [name]) :=
        step_eq_ok_iff.2 ⟨access', entries, hplace, .inr (henter hdirectory),
          turn_of_isEntryName (isName_iff.1 (hentries.names _ he)).1 _, child, hnext⟩
      rw [walk_cons, hstep]
      refine (ih (hentries.nodes _ he) hchild hnext hbelow hrest).trans ?_
      rw [List.append_assoc]
      rfl

/-- A file that is listed is one that the walk finds. -/
theorem exists_namesAt_of_list (h : s.list fs root = .ok paths) :
    ∃ node, fs.node root = .ok node ∧ (∃ found, filesAt root node = .ok found) ∧
      ∀ path ∈ paths, ∃ ns ∈ namesAt node, path = ns.foldl join root := by
  obtain ⟨node, found, hroot, hfound, rfl⟩ := list_eq_ok_iff.1 h
  refine ⟨node, hroot, ⟨found, hfound⟩, fun path hpath => ?_⟩
  have hmem := (List.mem_filter.1 ((perm_sort _).mem_iff.1 hpath)).1
  rw [eq_of_filesAt hfound] at hmem
  obtain ⟨ns, hns, rfl⟩ := List.mem_map.1 hmem
  exact ⟨ns, hns, rfl⟩

/-- What is read of a file that a walk finds lies under the names that lead to it. -/
theorem node_of_mem_namesAt (hnode : node.Named IsName) (hroot : fs.node root = .ok node)
    (hwalk : CanBeWalked node) (hns : ns ∈ namesAt node) :
    fs.node (ns.foldl join root) = fs.nodeAt (fs.destination root ++ ns) := by
  have hplace := follow_of_node hroot
  obtain ⟨⟨access, bytes, hfile⟩, hshown⟩ := (mem_namesAt_iff hnode).1 hns
  -- The file is the root itself or stands in a directory below it.
  rcases List.eq_nil_or_concat' ns with rfl | ⟨front, last, rfl⟩
  · rw [follow_nil] at hfile
    cases hfile
    rw [List.append_nil]
    exact node_eq_nodeAt_of_file hroot
  have hnames := (hnode.of_follow hfile).1
  obtain ⟨names, hlocate, -⟩ := node_eq_ok_iff.1 hroot
  obtain rfl := (locate_spec hlocate).2.1
  have hfront : fs.locate (front.foldl join root) = .ok (fs.destination root ++ front) :=
    locate_foldl_join hlocate (fun n hn => hnames n (List.mem_append_left _ hn))
      (walk_of_canBeWalked hnode hwalk hplace hfile hshown)
  have hwhole : fs.root.follow (fs.destination root ++ front ++ [last]) =
      some (.file access bytes) := by
    rw [List.append_assoc, follow_append_of_follow hplace, hfile]
  obtain ⟨access', entries, hdirectory⟩ :=
    exists_directory_of_follow (List.cons_ne_nil last []) hwhole
  have hlast := hnames last (by simp)
  -- Both sides are the last step from that directory; asking whether it may be entered is all that
  -- can fail, and for both with the same problem.
  unfold FileSystem.node nodeAt
  rw [List.foldl_append, List.foldl_cons, List.foldl_nil, locate_join_name hfront hlast,
    ← List.append_assoc, List.dropLast_concat, hdirectory, hwhole]
  unfold FileSystem.step
  rw [hdirectory, turn_of_isEntryName (isName_iff.1 hlast).1, hwhole]
  dsimp only
  rw [if_pos hlast.ne_empty]
  cases access'.enter with
  | some problem => rfl
  | none => exact (congrArg (Option.elim · _ _) hwhole).trans rfl

/-- The paths of the files that are found tell their names. -/
theorem foldl_join_inj {ms : List RawPath} (hroot : root ≠ []) (hns : ∀ n ∈ ns, IsName n)
    (hms : ∀ m ∈ ms, IsName m)
    (h : components (ns.foldl join root) = components (ms.foldl join root)) : ns = ms := by
  rw [components_foldl_join hns hroot, components_foldl_join hms hroot] at h
  exact List.append_cancel_left h

/-- Names that lead to a file are those of entries. -/
theorem isName_of_mem_namesAt (h : node.Named IsName) (hns : ns ∈ namesAt node) :
    ∀ n ∈ ns, IsName n := by
  obtain ⟨⟨access, bytes, hfile⟩, -⟩ := (mem_namesAt_iff h).1 hns
  exact (h.of_follow hfile).1

/-- One path comes before another in the order of their components. -/
def Before (p q : RawPath) : Prop := components p < components q

/-- What is listed comes in strict order: different files have different components. -/
theorem pairwise_before (h : node.Named IsName) (hroot : root ≠ []) (p : RawPath → Bool) :
    (sort (((namesAt node).map (·.foldl join root)).filter p)).Pairwise Before := by
  have hinj : ∀ ns ∈ namesAt node, ∀ ms ∈ namesAt node,
      components (ns.foldl join root) = components (ms.foldl join root) → ns = ms :=
    fun ns hns ms hms => foldl_join_inj hroot (isName_of_mem_namesAt h hns)
      (isName_of_mem_namesAt h hms)
  have hnodup : ((namesAt node).map (·.foldl join root)).Nodup :=
    (nodup_namesAt h).map_on fun ns hns ms hms heq => hinj ns hns ms hms (congrArg components heq)
  have hperm := perm_sort (((namesAt node).map (·.foldl join root)).filter p)
  have hdifferent := hperm.nodup_iff.2 (hnodup.filter p)
  refine ((pairwise_sort _).and hdifferent).imp_of_mem fun {q r} hq hr hle => ?_
  obtain ⟨ns, hns, rfl⟩ := List.mem_map.1 (List.mem_filter.1 (hperm.mem_iff.1 hq)).1
  obtain ⟨ms, hms, rfl⟩ := List.mem_map.1 (List.mem_filter.1 (hperm.mem_iff.1 hr)).1
  refine Std.lt_of_le_of_ne hle.1 fun heq => hle.2 ?_
  rw [hinj ns hns ms hms heq]

/-! ## Extensions -/

/-- The name has the extension behind its last dot, which is not its first byte. -/
def HasExtension (name : RawPath) (extension : List Char) : Prop :=
  ∃ stem ending, stem ≠ [] ∧ name = stem ++ dot :: ending ∧ dot ∉ ending ∧
    decodeLossy ending = extension

/-- The extension is what is behind the last dot, if something is in front of it. -/
theorem extensionOf?_eq_some_iff {ending : RawPath} : extensionOf? name = some ending ↔
    ∃ stem, stem ≠ [] ∧ name = stem ++ dot :: ending ∧ dot ∉ ending := by
  unfold extensionOf?
  dsimp only
  -- The length test keeps names that start with their only dot, or have none, without an extension.
  constructor
  · intro h
    split at h
    · next hlength =>
      obtain rfl := Option.some.inj h
      obtain ⟨hdot, hname | ⟨stem, hname⟩⟩ := lastPiece_cases dot name
      · rw [hname] at hlength
        omega
      · refine ⟨stem, fun hstem => ?_, hname, hdot⟩
        have hwhole := congrArg List.length hname
        simp only [hstem, List.nil_append, List.length_cons] at hwhole
        omega
    · cases h
  · rintro ⟨stem, hstem, rfl, hdot⟩
    have hlast : lastPiece dot (stem ++ dot :: ending) = ending := by
      rw [lastPiece_append_cons, lastPiece_of_not_mem hdot]
    have hlength := List.length_pos_iff.2 hstem
    rw [hlast, if_pos (by rw [List.length_append, List.length_cons]; omega)]

/-- The last component of the path of a file that is found is the name of the file. -/
theorem exists_last_component {bytes : List UInt8} (hnode : node.Named IsName)
    (hroot : fs.node root = .ok node) (hfile : node.follow ns = some (.file access bytes)) :
    ∃ name, (fs.destination root ++ ns).getLast? = some name ∧
      (components (ns.foldl join root)).getLast? = some name ∧ name ≠ [dot, dot] := by
  obtain ⟨names, hplace, hfollow⟩ := node_eq_ok_iff.1 hroot
  obtain ⟨hne, hdestination, -⟩ := locate_spec hplace
  have hns := (hnode.of_follow hfile).1
  rcases List.eq_nil_or_concat' ns with rfl | ⟨front, name, rfl⟩
  · rw [follow_nil] at hfile
    cases hfile
    obtain ⟨front, name, _, _, rfl, hname, hlast, -, -⟩ :=
      exists_name_of_locate_file hplace hfollow
    refine ⟨name, ?_, getLast?_components hlast hname, (isEntryName_iff.1 hname).2.2⟩
    rw [hdestination, List.append_nil, List.getLast?_concat]
  · refine ⟨name, ?_, ?_, (hns name (by simp)).ne_up⟩
    · rw [← List.append_assoc, List.getLast?_concat]
    · rw [components_foldl_join hns hne, ← List.append_assoc, List.getLast?_concat]

/-! ## What is wanted -/

/-- Texts of exclusions that are patterns make a selection with just these patterns. -/
theorem exists_ofTexts {patterns : List String}
    (hpatterns : ∀ pattern ∈ patterns, ∃ glob, Glob.read pattern = .ok glob) (extension : String) :
    ∃ s, ofTexts extension patterns = .ok s ∧
      s.extension.toList = dropLeading '.' extension.toList ∧
      ∀ glob, glob ∈ s.exclusions ↔ ∃ pattern ∈ patterns, Glob.read pattern = .ok glob := by
  -- Each pattern is read by itself, so the globs are those of the patterns in their order.
  have hglobs : ∃ globs, patterns.mapM readExclusion = .ok globs ∧
      ∀ glob, glob ∈ globs ↔ ∃ pattern ∈ patterns, Glob.read pattern = .ok glob := by
    induction patterns with
    | nil => exact ⟨[], rfl, by simp⟩
    | cons pattern patterns ih =>
      obtain ⟨⟨glob, hglob⟩, hrest⟩ := List.forall_mem_cons.1 hpatterns
      obtain ⟨globs, hglobs, hmem⟩ := ih hrest
      have hread : readExclusion pattern = .ok glob := by
        rw [readExclusion, hglob]
        rfl
      refine ⟨glob :: globs, ?_, fun g => ?_⟩
      · rw [List.mapM_cons, hread, hglobs]
        rfl
      · simp [hmem, hglob, eq_comm]
  obtain ⟨globs, hglobs, hmem⟩ := hglobs
  refine ⟨{ extension := .ofList (dropLeading '.' extension.toList), exclusions := globs }, ?_,
    String.toList_ofList, hmem⟩
  unfold ofTexts
  rw [hglobs]
  rfl

/-- A file is wanted if its name has the extension and no exclusion covers its key. -/
theorem wants_iff (hname : (components path).getLast? = some name) (hup : name ≠ [dot, dot]) :
    s.wants root path = true ↔ HasExtension name s.extension.toList ∧
      ∀ glob ∈ s.exclusions, glob.covers (relativeKey path root).toList = false := by
  have hextension : extension? path = extensionOf? name := by
    unfold extension?
    rw [hname]
    exact if_neg hup
  have hsome : (extensionOf? name).map display = some s.extension ↔
      HasExtension name s.extension.toList := by
    rw [Option.map_eq_some_iff, HasExtension]
    constructor
    · rintro ⟨ending, hending, hdisplay⟩
      obtain ⟨stem, hstem, hwhole, hdot⟩ := extensionOf?_eq_some_iff.1 hending
      exact ⟨stem, ending, hstem, hwhole, hdot, by rw [← hdisplay, toList_display]⟩
    · rintro ⟨stem, ending, hstem, hwhole, hdot, hdisplay⟩
      refine ⟨ending, extensionOf?_eq_some_iff.2 ⟨stem, hstem, hwhole, hdot⟩, ?_⟩
      rw [← String.toList_inj, toList_display, hdisplay]
  rw [wants, hextension, Bool.and_eq_true, beq_iff_eq, hsome]
  simp

/-- The file that names lead down to from the place of the root is wanted. -/
structure Wanted (fs : FileSystem) (root : RawPath) (extension : String) (patterns : List String)
    (ns : List RawPath) : Prop where
  /-- A file lies there. -/
  file : ∃ access bytes,
    fs.root.follow (fs.destination root ++ ns) = some (.file access bytes)
  shown : Shown ns
  /-- Its own name has the extension, dots in front of that apart. -/
  extension : ∃ name, (fs.destination root ++ ns).getLast? = some name ∧
    HasExtension name (dropLeading '.' extension.toList)
  /-- No exclusion covers its key. -/
  kept : ∀ pattern ∈ patterns, ∀ glob, Glob.read pattern = .ok glob →
    glob.covers (relativeKey (ns.foldl join root) root).toList = false

/-- Whether a file that is found is wanted is a matter of its last name and of its key. -/
theorem wants_found_iff {bytes : List UInt8} (hnode : node.Named IsName)
    (hroot : fs.node root = .ok node) (hfile : node.follow ns = some (.file access bytes)) :
    s.wants root (ns.foldl join root) = true ↔
      (∃ name, (fs.destination root ++ ns).getLast? = some name ∧
        HasExtension name s.extension.toList) ∧
      ∀ glob ∈ s.exclusions, glob.covers (relativeKey (ns.foldl join root) root).toList = false := by
  obtain ⟨name, hlast, hcomponent, hup⟩ := exists_last_component hnode hroot hfile
  rw [wants_iff hcomponent hup, hlast]
  simp

/-- The wanted files are those that the walk finds and that the selection takes. -/
theorem wanted_iff {patterns : List String} {extension : String} (hroot : fs.node root = .ok node)
    (hnode : node.Named IsName) (hextension : s.extension.toList = dropLeading '.' extension.toList)
    (hexclusions : ∀ glob, glob ∈ s.exclusions ↔
      ∃ pattern ∈ patterns, Glob.read pattern = .ok glob) :
    Wanted fs root extension patterns ns ↔
      ns ∈ namesAt node ∧ s.wants root (ns.foldl join root) = true := by
  have hfollow : fs.root.follow (fs.destination root ++ ns) = node.follow ns :=
    follow_append_of_follow (follow_of_node hroot) ns
  rw [mem_namesAt_iff hnode]
  constructor
  · rintro ⟨⟨access, bytes, hfile⟩, hshown, hname, hkept⟩
    rw [hfollow] at hfile
    refine ⟨⟨⟨access, bytes, hfile⟩, hshown⟩, ?_⟩
    rw [wants_found_iff hnode hroot hfile, hextension]
    refine ⟨hname, fun glob hglob => ?_⟩
    obtain ⟨pattern, hpattern, hread⟩ := (hexclusions glob).1 hglob
    exact hkept pattern hpattern glob hread
  · rintro ⟨⟨⟨access, bytes, hfile⟩, hshown⟩, hwants⟩
    rw [wants_found_iff hnode hroot hfile, hextension] at hwants
    exact ⟨⟨access, bytes, hfollow.trans hfile⟩, hshown, hwants.1,
      fun pattern hpattern glob hread => hwants.2 glob ((hexclusions glob).2 ⟨pattern, hpattern, hread⟩)⟩

/-- The wanted files at and below a root are listed, each once and in the order of their paths, just
if no directory that the walk comes to stops it. -/
theorem list_wanted {patterns : List String} (htree : fs.root.Named IsName)
    (hroot : fs.node root = .ok node)
    (hpatterns : ∀ pattern ∈ patterns, ∃ glob, Glob.read pattern = .ok glob) (extension : String) :
    ∃ s, ofTexts extension patterns = .ok s ∧
      ((∃ paths, s.list fs root = .ok paths) ↔ CanBeWalked node) ∧
      ∀ paths, s.list fs root = .ok paths →
        paths.Pairwise Before ∧ paths.Nodup ∧
        ∀ path, path ∈ paths ↔
          ∃ ns, path = ns.foldl join root ∧ Wanted fs root extension patterns ns := by
  obtain ⟨s, hselection, hextension, hexclusions⟩ := exists_ofTexts hpatterns extension
  have hplace := follow_of_node hroot
  have hnode : node.Named IsName := (htree.of_follow hplace).2
  -- The listing is the walk, filtered and then sorted; the three are looked at one by one.
  have hlisted : ∀ paths, s.list fs root = .ok paths ↔
      ∃ found, filesAt root node = .ok found ∧
        sort (found.filter (s.wants root)) = paths := by
    intro paths
    rw [list_eq_ok_iff, hroot]
    simp
  refine ⟨s, hselection, ?_, fun paths hpaths => ?_⟩
  · have hfiles : (∃ found, filesAt root node = .ok found) ↔ CanBeWalked node :=
      exists_filesAt_iff hnode
    rw [← hfiles]
    simp [hlisted]
  obtain ⟨found, hfound, rfl⟩ := (hlisted paths).1 hpaths
  -- The order comes from the sort alone: it holds of the walk's files in whatever order they come.
  have horder := pairwise_before hnode (ne_nil_of_node hroot) (s.wants root)
  rw [← eq_of_filesAt hfound] at horder
  refine ⟨horder, ?_, fun path => ?_⟩
  · refine horder.imp fun hlt heq => ?_
    rw [heq] at hlt
    exact List.lt_irrefl _ hlt
  have hwanted : ∀ {ns}, Wanted fs root extension patterns ns ↔
      ns ∈ namesAt node ∧ s.wants root (ns.foldl join root) = true :=
    fun {_} => wanted_iff hroot hnode hextension hexclusions
  -- Sorting and filtering change no membership but by what is wanted.
  rw [(perm_sort _).mem_iff, List.mem_filter, eq_of_filesAt hfound, List.mem_map]
  constructor
  · rintro ⟨⟨ns, hns, rfl⟩, hwants⟩
    exact ⟨ns, rfl, hwanted.2 ⟨hns, hwants⟩⟩
  · rintro ⟨ns, rfl, hns⟩
    obtain ⟨hmem, hwants⟩ := hwanted.1 hns
    exact ⟨⟨ns, hmem, rfl⟩, hwants⟩

/-- A directory with files that are passed over for one reason or another. -/
def garden : FileSystem := .ofList [
  ("lib/z.php", .file {} []), ("lib/a/m.php", .file {} []), ("lib/a.txt", .file {} []),
  ("lib/.cache/c.php", .file {} []), ("lib/CVS/d.php", .file {} []),
  ("lib/tmpl/e.php", .file {} [])]

/-- Of the tree the files with the extension are listed that are neither hidden nor excluded. -/
theorem list_wanted_garden : garden.root.Named IsName ∧
    (∀ pattern ∈ ["tmpl/*"], ∃ glob, Glob.read pattern = .ok glob) ∧
    ∃ node, garden.node (encode "lib") = .ok node ∧
      ∃ s paths, ofTexts ".php" ["tmpl/*"] = .ok s ∧ s.list garden (encode "lib") = .ok paths ∧
        CanBeWalked node ∧ paths.Pairwise Before ∧ paths.Nodup ∧
        ∀ path, path ∈ paths ↔ ∃ ns, path = ns.foldl join (encode "lib") ∧
          Wanted garden (encode "lib") ".php" ["tmpl/*"] ns := by
  have htree : garden.root.Named IsName := named_ofList _
  have hpatterns : ∀ pattern ∈ ["tmpl/*"], ∃ glob, Glob.read pattern = .ok glob := by
    intro pattern hpattern
    obtain rfl := List.mem_singleton.1 hpattern
    simp [Glob.read, Glob.tokens]
  -- The tree has a directory there and its walk succeeds; both are found out by running them.
  have hthere : (garden.node (encode "lib")).toOption.isSome = true := by decide +kernel
  have hfound : ((garden.node (encode "lib")).toOption.bind fun node =>
      (filesAt (encode "lib") node).toOption).isSome = true := by decide +kernel
  cases hroot : garden.node (encode "lib") with
  | error problem =>
    rw [hroot] at hthere
    cases hthere
  | ok node =>
    obtain ⟨s, hselection, hwalked, hwanted⟩ := list_wanted htree hroot hpatterns ".php"
    cases hfiles : filesAt (encode "lib") node with
    | error e => simp [Except.toOption, hroot, hfiles] at hfound
    | ok found =>
      have hwalk : CanBeWalked node :=
        (exists_filesAt_iff (htree.of_follow (follow_of_node hroot)).2).1 ⟨found, hfiles⟩
      obtain ⟨paths, hpaths⟩ := hwalked.2 hwalk
      exact ⟨htree, hpatterns, node, rfl, s, paths, hselection, hpaths, hwalk, hwanted paths hpaths⟩

example : (({ extension := "php", exclusions := [] } : FileSelection).list garden
    (encode "lib")).toOption =
      some [encode "lib/a/m.php", encode "lib/tmpl/e.php", encode "lib/z.php"] := by decide +kernel

end FileSelection
end ApiCatalog
