import ApiCatalog.Proofs.Release.Distinct
import ApiCatalog.Proofs.Release.Modes
import Mathlib.Data.List.Perm.Subperm

/-!
# How failures are counted

A permissive run counts a file that fails each time it meets it. Below one configured directory it
meets a file once, since the walk lists different places (`nodup_keyedIn`). But what is configured
may overlap, and a file is met once for each configured directory that it is wanted below, and once
more if it is configured itself (`count_failingFiles`). So the count is one of files where no file
that fails is met twice (`failures_tallied`). A directory that cannot be listed ends a run, and what
is configured behind it is not met any more (`reached`).
-/

namespace ApiCatalog

open FileTree FilePath FileSystem ReleaseReader Text

/-! ## When a run gives up -/

/-- A permissive run gives up when more files have failed than may be skipped, before it is stopped
by something else. -/
theorem Report.tooManyFailures_iff {r : Report} {max : UInt64} {events : List Event}
    (hskipped : r.skipped.length ≤ max.toNat)
    (hstops : ∀ error, .stop error ∈ events → ∀ count, error ≠ .tooManyFailures count) :
    (∃ count, (r.playAll ⟨.permissive, max⟩ events).mapError Halt.error =
        .error (.tooManyFailures count)) ↔
      max.toNat < r.skipped.length +
        (results (events.takeWhile (!·.isStop))).failures.length := by
  -- On the events; what has been skipped so far counts with what is skipped later.
  induction events generalizing r with
  | nil =>
    refine iff_of_false ?_ (Nat.not_lt.2 hskipped)
    rintro ⟨count, h⟩
    cases h
  | cons event events ih =>
    have hrest : ∀ error, .stop error ∈ events → ∀ count, error ≠ .tooManyFailures count :=
      fun error h => hstops error (List.mem_cons_of_mem _ h)
    rw [playAll_cons]
    match event with
    | .missing path => exact ih (r := r.addMissing path) hskipped hrest
    | .file key (.ok entry) => exact ih (r := r.addFile key entry) hskipped hrest
    -- A stop ends the reading with an error that is not about too many failures.
    | .stop error =>
      refine iff_of_false ?_ (Nat.not_lt.2 hskipped)
      rintro ⟨count, h⟩
      exact hstops error List.mem_cons_self count (Except.error.inj h)
    | .file key (.error error) =>
      have hcount : (results ((Event.file key (.error error) :: events).takeWhile
          (!·.isStop))).failures =
            ⟨key, error⟩ :: (results (events.takeWhile (!·.isStop))).failures := rfl
      rw [hcount, List.length_cons]
      -- One failure more breaks the limit at once, or is noted and counts for the events behind.
      by_cases hmany : max.toNat < r.skipped.length + 1
      · have hplay : r.play ⟨.permissive, max⟩ (.file key (.error error)) = .error
            ⟨.tooManyFailures (r.skipped.length + 1),
              { r with skipped := r.skipped ++ [⟨key, error⟩] }⟩ := by
          simp [play, record, skip, hmany]
        rw [hplay]
        exact iff_of_true ⟨_, rfl⟩ (by omega)
      · have hplay : r.play ⟨.permissive, max⟩ (.file key (.error error)) =
            .ok { r with skipped := r.skipped ++ [⟨key, error⟩] } := by
          simp [play, record, skip, hmany]
        rw [hplay]
        refine (ih (r := { r with skipped := r.skipped ++ [⟨key, error⟩] }) ?_ hrest).trans ?_
        · simpa using Nat.not_lt.1 hmany
        · simp only [List.length_append, List.length_singleton]
          omega

variable {files : FileSystem} {path path' : RawPath} {file : List RawPath}
  {keyed : List (String × RawPath)} {s : SkippedFile}

/-- The error of a file says its path. -/
theorem path_of_parseFile_error {files' : FileSystem} {e : Error}
    (h : parseFile files path = .error e) (h' : parseFile files' path' = .error e) :
    path = path' := by
  have hpath : ∀ {files : FileSystem} {path : RawPath}, parseFile files path = .error e →
      (∃ problem, e = .unreadable path problem) ∨ ∃ problem, e = .syntaxError path problem := by
    intro files path h
    unfold parseFile parseSource at h
    split at h
    · exact .inl ⟨_, (Except.error.inj h).symm⟩
    · split at h
      · cases h
      · exact .inr ⟨_, (Except.error.inj h).symm⟩
  rcases hpath h with ⟨_, rfl⟩ | ⟨_, rfl⟩ <;> rcases hpath h' with ⟨_, he⟩ | ⟨_, he⟩ <;> cases he <;>
    rfl

/-! ## Files that fail -/

/-- The files among those at the paths that fail, each by the names of its place, in the order in
which they are met. -/
def failingFiles (files : FileSystem) (keyed : List (String × RawPath)) : List (List RawPath) :=
  (keyed.filter fun e => (parseFile files e.2).toOption.isNone).map fun e => files.destination e.2

/-- The skipped file is the one at these names: it stands under a key of the file, with the error of
reading it. -/
def NotedIn (files : FileSystem) (keyed : List (String × RawPath)) (s : SkippedFile)
    (file : List RawPath) : Prop :=
  ∃ path, (s.key, path) ∈ keyed ∧ files.destination path = file ∧
    parseFile files path = .error s.error

/-- One of the paths leads to the file. -/
def leadsTo (files : FileSystem) (file : List RawPath) (source : List (String × RawPath)) : Bool :=
  source.any fun e => files.destination e.2 == file

/-- A file is among the failing ones if it is read under some path and fails. -/
theorem mem_failingFiles_iff : file ∈ failingFiles files keyed ↔
    ∃ key path e, (key, path) ∈ keyed ∧ files.destination path = file ∧
      parseFile files path = .error e := by
  have hfails : ∀ path, (parseFile files path).toOption.isNone = true ↔
      ∃ e, parseFile files path = .error e := by
    intro path
    cases parseFile files path <;> simp [Except.toOption]
  simp only [failingFiles, List.mem_map, List.mem_filter, hfails]
  constructor
  · rintro ⟨⟨key, path⟩, ⟨hpath, e, he⟩, hfile⟩
    exact ⟨key, path, e, hpath, hfile, he⟩
  · rintro ⟨key, path, e, hpath, hfile, he⟩
    exact ⟨(key, path), ⟨hpath, e, he⟩, hfile⟩

/-- A file that is noted twice is one file. -/
theorem NotedIn.unique {file' : List RawPath} (h : NotedIn files keyed s file)
    (h' : NotedIn files keyed s file') : file = file' := by
  obtain ⟨path, -, hfile, herror⟩ := h
  obtain ⟨path', -, hfile', herror'⟩ := h'
  obtain rfl := path_of_parseFile_error herror herror'
  exact hfile.symm.trans hfile'

/-- What is skipped are the files that fail, one after the other. -/
theorem forall₂_notedIn (files : FileSystem) (keyed : List (String × RawPath)) :
    List.Forall₂ (NotedIn files keyed) (resultsOf files keyed).failures
      (failingFiles files keyed) := by
  -- Keyed file by keyed file: both lists leave out the same ones.
  induction keyed with
  | nil => exact .nil
  | cons e keyed ih =>
    have hrest : List.Forall₂ (NotedIn files (e :: keyed)) (resultsOf files keyed).failures
        (failingFiles files keyed) :=
      ih.imp fun s file ⟨path, hpath, hnoted⟩ => ⟨path, List.mem_cons_of_mem _ hpath, hnoted⟩
    cases hparse : parseFile files e.2 with
    | ok entry =>
      have hresults : (resultsOf files (e :: keyed)).failures = (resultsOf files keyed).failures := by
        simp [resultsOf, Results.failures, hparse]
      have hfiles : failingFiles files (e :: keyed) = failingFiles files keyed := by
        simp [failingFiles, hparse, Except.toOption]
      rwa [hresults, hfiles]
    | error error =>
      have hresults : (resultsOf files (e :: keyed)).failures =
          ⟨e.1, error⟩ :: (resultsOf files keyed).failures := by
        simp [resultsOf, Results.failures, hparse]
      have hfiles : failingFiles files (e :: keyed) =
          files.destination e.2 :: failingFiles files keyed := by
        simp [failingFiles, hparse, Except.toOption]
      rw [hresults, hfiles]
      exact .cons ⟨e.2, List.mem_cons_self, rfl, hparse⟩ hrest

/-- Among sources that lead to different places each, a file that fails is met once for each of them
that leads to it. -/
theorem count_failingFiles {sources : List (List (String × RawPath))}
    (hunique : ∀ source ∈ sources, (source.map fun e => files.destination e.2).Nodup)
    (hfails : ∀ source ∈ sources, ∀ e ∈ source, files.destination e.2 = file →
      (parseFile files e.2).toOption = none) :
    (failingFiles files sources.flatten).count file = sources.countP (leadsTo files file) := by
  induction sources with
  | nil => rfl
  | cons source sources ih =>
    obtain ⟨hsource, hsources⟩ := List.forall_mem_cons.1 hunique
    obtain ⟨hfirst, hmore⟩ := List.forall_mem_cons.1 hfails
    have hsplit : failingFiles files (source :: sources).flatten =
        failingFiles files source ++ failingFiles files sources.flatten := by
      simp [failingFiles]
    -- In one source the file is met once if at all, whatever it is met under.
    have hnodup : (failingFiles files source).Nodup := (List.filter_sublist.map _).nodup hsource
    have hmem : file ∈ failingFiles files source ↔ leadsTo files file source = true := by
      simp only [failingFiles, leadsTo, List.mem_map, List.mem_filter, List.any_eq_true, beq_iff_eq]
      constructor
      · rintro ⟨e, ⟨he, -⟩, hfile⟩
        exact ⟨e, he, hfile⟩
      · rintro ⟨e, he, hfile⟩
        exact ⟨e, ⟨he, by simp [hfirst e he hfile]⟩, hfile⟩
    rw [hsplit, List.count_append, ih hsources hmore, hnodup.count, List.countP_cons, Nat.add_comm]
    exact congrArg _ (if_congr hmem rfl rfl)

namespace ReleaseReader

variable {reader : ReleaseReader} {branch : Branch} {release : String} {r : Report}
  {failing : List (List RawPath)}

/-! ## What a run comes to -/

/-- The directory is not there, or it can be listed. -/
def canList (reader : ReleaseReader) (dir : String) : Bool :=
  !reader.hasDirectory dir || (reader.list dir).toOption.isSome

/-- What is configured in front of the first directory that cannot be listed. -/
def reached (reader : ReleaseReader) (branch : Branch) : Branch :=
  { branch with
    paths := branch.paths.takeWhile reader.canList
    files := if branch.paths.all reader.canList then branch.files else [] }

/-- The events of a directory that can be listed do not end the run; else there is one that does. -/
theorem directoryEvents_cases (reader : ReleaseReader) (dir : String) :
    (reader.canList dir = true ∧ ∀ event ∈ reader.directoryEvents dir, event.isStop = false) ∨
      reader.canList dir = false ∧ ∃ error, reader.directoryEvents dir = [.stop error] := by
  unfold canList directoryEvents
  cases reader.hasDirectory dir with
  | false => exact .inl ⟨rfl, fun event h => by cases List.mem_singleton.1 h; rfl⟩
  | true =>
    cases reader.list dir with
    | error error => exact .inr ⟨rfl, error, rfl⟩
    | ok paths =>
      refine .inl ⟨rfl, fun event h => ?_⟩
      obtain ⟨path, -, rfl⟩ := List.mem_map.1 h
      rfl

theorem isStop_singleEvents {file : String} {event : Event}
    (h : event ∈ reader.singleEvents file) : event.isStop = false := by
  unfold singleEvents at h
  split at h <;> cases List.mem_singleton.1 h <;> rfl

/-- The results of the directories until one cannot be listed, and then those of the rest. -/
theorem results_takeWhile_flatMap (reader : ReleaseReader) (paths : List String)
    (rest : List Event) :
    results ((paths.flatMap reader.directoryEvents ++ rest).takeWhile (!·.isStop)) =
      resultsOf reader.files ((paths.takeWhile reader.canList).map reader.keyedIn).flatten ++
        if paths.all reader.canList then results (rest.takeWhile (!·.isStop)) else [] := by
  induction paths with
  | nil => rfl
  | cons dir paths ih =>
    rw [List.flatMap_cons, List.append_assoc]
    rcases reader.directoryEvents_cases dir with ⟨hlist, hgoes⟩ | ⟨hlist, error, hevents⟩
    · rw [List.takeWhile_append_of_pos (fun event h => by simp [hgoes event h]), results_append, ih,
        results_directoryEvents, List.takeWhile_cons_of_pos hlist, List.all_cons, hlist,
        Bool.true_and, List.map_cons, List.flatten_cons, resultsOf, resultsOf, resultsOf,
        List.map_append, List.append_assoc]
    · rw [hevents, List.takeWhile_cons_of_neg (by simp [hlist]), List.all_cons, hlist]
      rfl

/-- The results of a run until it is stopped are those of what it comes to. -/
theorem results_takeWhile (reader : ReleaseReader) (branch : Branch) :
    results ((reader.branchEvents branch).takeWhile (!·.isStop)) =
      resultsOf reader.files (reader.keyedFiles (reader.reached branch)) := by
  -- Behind the directories nothing stops but the class map, which reads no file of its own.
  have hrest : results ((branch.files.flatMap reader.singleEvents ++
      reader.aliasEvents branch.classmap).takeWhile (!·.isStop)) =
        resultsOf reader.files (branch.files.map reader.keyedAt).flatten := by
    have hgoes : ∀ event ∈ branch.files.flatMap reader.singleEvents, (!event.isStop) = true := by
      intro event h
      obtain ⟨file, -, h⟩ := List.mem_flatMap.1 h
      simp [isStop_singleEvents h]
    have haliases : results ((reader.aliasEvents branch.classmap).takeWhile (!·.isStop)) = [] := by
      unfold aliasEvents
      split <;> rfl
    rw [List.takeWhile_append_of_pos hgoes, results_append, haliases, List.append_nil,
      results_flatMap, funext reader.results_singleEvents]
    unfold resultsOf
    rw [← List.flatMap_def, List.map_flatMap]
  unfold branchEvents
  -- What is left are the directories, of which `reached` has those up to the first stop.
  rw [List.append_assoc, results_takeWhile_flatMap, hrest]
  unfold keyedFiles sources reached resultsOf
  rw [List.flatten_append, List.map_append]
  dsimp only
  split <;> rfl

/-- A run that nothing stops comes to everything that is configured. -/
theorem reached_eq (h : ∀ event ∈ reader.branchEvents branch, event.isStop = false) :
    reader.reached branch = branch := by
  have hlist : ∀ dir ∈ branch.paths, reader.canList dir = true := by
    intro dir hdir
    rcases reader.directoryEvents_cases dir with ⟨hlist, -⟩ | ⟨-, error, hevents⟩
    · exact hlist
    · have hstop : .stop error ∈ reader.branchEvents branch := by
        refine List.mem_append_left _ (List.mem_append_left _ (List.mem_flatMap.2 ⟨dir, hdir, ?_⟩))
        rw [hevents]
        exact List.mem_cons_self
      cases h _ hstop
  have hpaths : branch.paths.takeWhile reader.canList = branch.paths :=
    List.takeWhile_eq_self_iff.2 hlist
  unfold reached
  rw [hpaths, if_pos (List.all_eq_true.2 hlist)]

section Named

variable (htree : reader.files.root.Named IsName)
include htree

/-- Below a directory no place is listed twice. -/
theorem nodup_keyedIn (dir : String) :
    ((reader.keyedIn dir).map fun e => reader.files.destination e.2).Nodup := by
  unfold keyedIn
  split
  · cases hlist : reader.list dir with
    | error error => exact List.nodup_nil
    | ok paths =>
      obtain ⟨node, found, hnode, hfound, rfl⟩ := FileSelection.list_eq_ok_iff.1 hlist
      have hnamed : node.Named IsName := (htree.of_follow (follow_of_node hnode)).2
      have hplaces : ((FileSelection.namesAt node).map (·.foldl join (reader.place dir))).map
          reader.files.destination = (FileSelection.namesAt node).map
            (reader.files.destination (reader.place dir) ++ ·) := by
        rw [List.map_map]
        exact List.map_congr_left fun ns hns =>
          destination_foldl_join (FileSelection.isName_of_mem_namesAt hnamed hns) _
      have hdifferent : (((FileSelection.namesAt node).map (·.foldl join (reader.place dir))).map
          reader.files.destination).Nodup := by
        rw [hplaces]
        exact (FileSelection.nodup_namesAt hnamed).map (List.append_right_injective _)
      dsimp only [Except.toOption, Option.getD_some]
      rw [List.map_map, FileSelection.eq_of_filesAt hfound]
      -- What is wanted is a part of what is found, in another order.
      exact ((FileSelection.perm_sort _).map _).nodup_iff.2
        ((List.filter_sublist.map _).nodup hdifferent)
  · exact List.nodup_nil

/-- A configured directory or file leads to each file once. -/
theorem nodup_source {source : List (String × RawPath)} (h : source ∈ reader.sources branch) :
    (source.map fun e => reader.files.destination e.2).Nodup := by
  rcases List.mem_append.1 h with h | h
  · obtain ⟨dir, -, rfl⟩ := List.mem_map.1 h
    exact nodup_keyedIn htree dir
  · obtain ⟨file, -, rfl⟩ := List.mem_map.1 h
    unfold keyedAt
    split <;> simp

end Named

/-! ## What is counted -/

/-- The file at these names is one of those that a run for the release comes to, and fails. -/
def Fails (reader : ReleaseReader) (release : String) (file : List RawPath) : Prop :=
  ∃ branch path e, reader.config.branchFor release = .ok branch ∧
    reader.Reads (reader.reached branch) path ∧ reader.files.destination path = file ∧
    parseFile reader.files path = .error e

/-- The skipped file is the one at these names, among those that a run for the release comes to. -/
def Notes (reader : ReleaseReader) (release : String) (s : SkippedFile) (file : List RawPath) :
    Prop :=
  ∃ branch, reader.config.branchFor release = .ok branch ∧
    NotedIn reader.files (reader.keyedFiles (reader.reached branch)) s file

/-- How many of the configured directories and files that a run comes to lead to the file. -/
def meetings (reader : ReleaseReader) (release : String) (file : List RawPath) : Nat :=
  match reader.config.branchFor release with
  | .ok branch => (reader.sources (reader.reached branch)).countP (leadsTo reader.files file)
  | .error _ => 0

/-- The run gives up when more different files fail than may be skipped. If it does not, then it
skips files that fail, and notes each of them once. -/
structure CountsFailingFiles (reader : ReleaseReader) (release : String) : Prop where
  aborts : (∃ count, reader.read release = .error (.tooManyFailures count)) ↔
    ∃ files : List (List RawPath), files.Nodup ∧ (∀ file ∈ files, reader.Fails release file) ∧
      reader.config.errorHandling.maxErrors.toNat < files.length
  fails : ∀ r, reader.read release = .ok r → ∀ s ∈ r.skipped, ∃ file,
    reader.Fails release file ∧ reader.Notes release s file
  once : ∀ r, reader.read release = .ok r → ∀ file, reader.Fails release file →
    ∃! i : Fin r.skipped.length, reader.Notes release r.skipped[i] file

/-- What a permissive run counts: the files that fail, each as often as it is met. -/
structure Tally (reader : ReleaseReader) (release : String) (files : List (List RawPath)) :
    Prop where
  fails : ∀ file, file ∈ files ↔ reader.Fails release file
  count : ∀ file, reader.Fails release file → files.count file = reader.meetings release file
  aborts : (∃ count, reader.read release = .error (.tooManyFailures count)) ↔
    reader.config.errorHandling.maxErrors.toNat < files.length
  skipped : ∀ r, reader.read release = .ok r → List.Forall₂ (reader.Notes release) r.skipped files

/-- What is skipped notes one file. -/
theorem Notes.unique {file file' : List RawPath} (h : reader.Notes release s file)
    (h' : reader.Notes release s file') : file = file' := by
  obtain ⟨branch, hbranch, hnoted⟩ := h
  obtain ⟨branch', hbranch', hnoted'⟩ := h'
  obtain rfl := Except.ok.inj (hbranch.symm.trans hbranch')
  exact hnoted.unique hnoted'

/-- A file fails if it is among the failing ones of what is come to. -/
theorem fails_iff (hbranch : reader.config.branchFor release = .ok branch) :
    reader.Fails release file ↔
      file ∈ failingFiles reader.files (reader.keyedFiles (reader.reached branch)) := by
  rw [mem_failingFiles_iff]
  constructor
  · rintro ⟨branch', path, e, hbranch', hreads, hfile, herror⟩
    obtain rfl := Except.ok.inj (hbranch.symm.trans hbranch')
    obtain ⟨key, hkey⟩ := reads_iff.1 hreads
    exact ⟨key, path, e, hkey, hfile, herror⟩
  · rintro ⟨key, path, e, hkey, hfile, herror⟩
    exact ⟨branch, path, e, hbranch, reads_iff.2 ⟨key, hkey⟩, hfile, herror⟩

/-- A release that is not configured has no files, so none that fails. -/
theorem tally_nil {e : Error} (hbranch : reader.config.branchFor release = .error e) :
    reader.Tally release [] := by
  have hread : reader.read release = .error e := by
    unfold read run
    rw [hbranch]
    rfl
  have hnone : ∀ file, ¬ reader.Fails release file := by
    rintro file ⟨branch, path, e', hbranch', -⟩
    cases hbranch.symm.trans hbranch'
  refine ⟨fun file => iff_of_false List.not_mem_nil (hnone file), fun file h => (hnone file h).elim,
    iff_of_false ?_ (Nat.not_lt_zero _), ?_⟩
  · rintro ⟨count, hcount⟩
    rw [hread, branchFor_error hbranch] at hcount
    cases hcount
  · intro r hr
    cases hread.symm.trans hr

/-- A permissive run gives up when it has met more failures than it may skip. -/
theorem aborts_iff (hmode : reader.config.errorHandling.strictness = .permissive)
    (hbranch : reader.config.branchFor release = .ok branch) :
    (∃ count, reader.read release = .error (.tooManyFailures count)) ↔
      reader.config.errorHandling.maxErrors.toNat <
        (failingFiles reader.files (reader.keyedFiles (reader.reached branch))).length := by
  have hhandling : reader.config.errorHandling =
      ⟨.permissive, reader.config.errorHandling.maxErrors⟩ := by rw [← hmode]
  -- The limit counts the events up to the first stop; those are the branch's.
  have hevents : reader.events release = reader.branchEvents branch := by
    unfold events
    rw [hbranch]
  have hnone : ({} : Report).skipped.length ≤ reader.config.errorHandling.maxErrors.toNat :=
    Nat.zero_le _
  have hcount := Report.tooManyFailures_iff hnone
    fun error (h : .stop error ∈ reader.events release) => ne_tooManyFailures h
  -- The reader aborts where playing its events does, since the aliases come last.
  have hread : ∀ error, reader.read release = .error error ↔
      (({} : Report).playAll reader.config.errorHandling (reader.events release)).mapError
        Halt.error = .error error := by
    intro error
    have hseen := (reader.alike_run release).seen
    unfold read
    rw [hseen]
    cases ({} : Report).playAll reader.config.errorHandling (reader.events release) with
    | error halt => exact Iff.rfl
    | ok r => exact iff_of_false nofun nofun
  rw [← (forall₂_notedIn _ _).length_eq, ← results_takeWhile, ← hevents]
  simp only [hread]
  rw [hhandling]
  refine hcount.trans ?_
  rw [List.length_nil, Nat.zero_add]

/-- The files that fail among those that a run comes to are what it counts. -/
theorem tally_failingFiles (htree : reader.files.root.Named IsName)
    (hmode : reader.config.errorHandling.strictness = .permissive)
    (hbranch : reader.config.branchFor release = .ok branch) :
    reader.Tally release
      (failingFiles reader.files (reader.keyedFiles (reader.reached branch))) := by
  constructor
  case fails => exact fun file => (fails_iff hbranch).symm
  case aborts => exact aborts_iff hmode hbranch
  case count =>
    intro file hfails
    obtain ⟨branch', path, e, hbranch', hreads, rfl, hparse⟩ := hfails
    obtain rfl := Except.ok.inj (hbranch.symm.trans hbranch')
    -- How often a file is met is how many of the sources lead to it: a source has it once at most.
    have hnamed : ∀ dir ∈ (reader.reached branch).paths, ∀ node,
        reader.files.node (reader.place dir) = .ok node → node.Named IsName :=
      fun _ _ node hnode => (htree.of_follow (follow_of_node hnode)).2
    have hcount : (failingFiles reader.files (reader.keyedFiles (reader.reached branch))).count
        (reader.files.destination path) = (reader.sources (reader.reached branch)).countP
          (leadsTo reader.files (reader.files.destination path)) := by
      -- Two ways to one file are read alike, so a failing file fails each time it is met.
      refine count_failingFiles (fun source => nodup_source htree)
        fun source hsource e he hplace => ?_
      have hreads' : reader.Reads (reader.reached branch) e.2 :=
        reads_iff.2 ⟨e.1, List.mem_flatten.2 ⟨source, hsource, he⟩⟩
      rw [toOption_parseFile_congr hnamed hreads' hreads hplace, hparse]
      rfl
    rw [hcount, meetings, hbranch]
  case skipped =>
    intro r hr
    -- A reading that ended well met no stop, and so reached everything.
    have hreached : reader.reached branch = branch := by
      refine reached_eq fun event hevent => (eq_after_of_read hr).2.1 event ?_
      unfold events
      rwa [hbranch]
    rw [hreached, (reported_of_read hbranch hr).skipped]
    refine (forall₂_notedIn _ _).imp fun s file h => ⟨branch, hbranch, ?_⟩
    rwa [hreached]

/-- Where no file is counted twice, the count is one of files. -/
theorem Tally.countsFailingFiles (h : reader.Tally release failing) (hnodup : failing.Nodup) :
    reader.CountsFailingFiles release := by
  constructor
  case aborts =>
    rw [h.aborts]
    constructor
    · exact fun hmany => ⟨failing, hnodup, fun file => (h.fails file).1, hmany⟩
    · rintro ⟨different, hdifferent, hfails, hmany⟩
      have hsubset : different ⊆ failing := fun file hfile => (h.fails file).2 (hfails file hfile)
      exact hmany.trans_le (List.Nodup.subperm hdifferent hsubset).length_le
  case fails =>
    intro r hr s hs
    obtain ⟨i, hi, rfl⟩ := List.getElem_of_mem hs
    have hnoted := (h.skipped r hr).get hi ((h.skipped r hr).length_eq ▸ hi)
    exact ⟨_, (h.fails _).1 (List.get_mem _ _), hnoted⟩
  case once =>
    intro r hr file hfails
    have hskipped := h.skipped r hr
    obtain ⟨i, hi, rfl⟩ := List.getElem_of_mem ((h.fails file).2 hfails)
    have hi' : i < r.skipped.length := hskipped.length_eq ▸ hi
    refine ⟨⟨i, hi'⟩, hskipped.get hi' hi, fun j hj => ?_⟩
    -- An entry that notes the file stands beside it in the list of those that fail.
    have hj' : j.1 < failing.length := hskipped.length_eq ▸ j.2
    have hsame : failing[j.1] = failing[i] := (hskipped.get j.2 hj').unique hj
    exact Fin.ext ((hnodup.getElem_inj_iff).1 hsame)

end ReleaseReader

/-- A permissive run counts every file that fails, once for each configured directory and file that
leads to it. So it counts files where no file that fails is met twice. -/
theorem failures_tallied {reader : ReleaseReader} {release : String}
    (htree : reader.files.root.Named IsName)
    (hmode : reader.config.errorHandling.strictness = .permissive) :
    (∃ files, reader.Tally release files) ∧
      ((∀ file, reader.Fails release file → reader.meetings release file ≤ 1) →
        reader.CountsFailingFiles release) := by
  have htally : ∃ files, reader.Tally release files := by
    cases hbranch : reader.config.branchFor release with
    | error e => exact ⟨_, ReleaseReader.tally_nil hbranch⟩
    | ok branch => exact ⟨_, ReleaseReader.tally_failingFiles htree hmode hbranch⟩
  refine ⟨htally, fun honce => ?_⟩
  obtain ⟨files, h⟩ := htally
  refine h.countsFailingFiles (List.nodup_iff_count_le_one.2 fun file => ?_)
  by_cases hfails : reader.Fails release file
  · rw [h.count file hfails]
    exact honce file hfails
  · rw [List.count_eq_zero_of_not_mem fun hmem => hfails ((h.fails file).1 hmem)]
    exact Nat.zero_le 1

/-- A checkout with a file that fails and one that does not. -/
def alley : FileSystem := .ofList [
  ("co/lib/sub/bad.php", .file {} (encode "<?php class \x7b")),
  ("co/lib/sub/good.php", .file {} (encode "<?php class Good \x7b\x7d"))]

/-- The reader of the checkout, for a branch and so many files to be skipped. -/
def alleyReader (branch : Branch) (max : UInt64) : ReleaseReader where
  config := {
    branches := .ofList [("3", branch)]
    errorHandling := { strictness := .permissive, maxErrors := max } }
  selection := { extension := "php", exclusions := [] }
  files := alley
  checkout := encode "co"

/-- The names of the file that fails. -/
def alleyFile : List RawPath := [encode "co", encode "lib", encode "sub", encode "bad.php"]

/-- A file below a configured directory is configured as well, and the one that fails is counted
once. -/
theorem failures_tallied_alley :
    let reader := alleyReader { paths := ["lib/sub"], files := ["lib/sub/good.php"] } 0
    reader.files.root.Named IsName ∧ reader.config.errorHandling.strictness = .permissive ∧
      (∃ files, reader.Tally "3.9" files) ∧
      (∀ file, reader.Fails "3.9" file → reader.meetings "3.9" file ≤ 1) ∧
      reader.Fails "3.9" alleyFile ∧ reader.CountsFailingFiles "3.9" := by
  intro reader
  have htree : reader.files.root.Named IsName := named_ofList _
  have hbranch : reader.config.branchFor "3.9" =
      .ok { paths := ["lib/sub"], files := ["lib/sub/good.php"] } := by rfl
  -- The directory has the broken file, and the file named beside it is another one.
  have hfailing : failingFiles reader.files (reader.keyedFiles (reader.reached
      { paths := ["lib/sub"], files := ["lib/sub/good.php"] })) = [alleyFile] := by decide +kernel
  have honce : ∀ file, reader.Fails "3.9" file → reader.meetings "3.9" file ≤ 1 := by
    intro file hfails
    rw [ReleaseReader.fails_iff hbranch, hfailing, List.mem_singleton] at hfails
    subst hfails
    decide +kernel
  have hfails : reader.Fails "3.9" alleyFile := by
    rw [ReleaseReader.fails_iff hbranch, hfailing]
    exact List.mem_singleton_self _
  have htallied : (∃ files, reader.Tally "3.9" files) ∧
      ((∀ file, reader.Fails "3.9" file → reader.meetings "3.9" file ≤ 1) →
        reader.CountsFailingFiles "3.9") := failures_tallied htree rfl
  exact ⟨htree, rfl, htallied.1, honce, hfails, htallied.2 honce⟩

/-- Of nested directories either leads to the file that fails. The run gives up on one file where
one may be skipped. -/
theorem not_countsFailingFiles :
    ¬ (alleyReader { paths := ["lib", "lib/sub"] } 1).CountsFailingFiles "3.9" := by
  intro h
  have hbranch : (alleyReader { paths := ["lib", "lib/sub"] } 1).config.branchFor "3.9" =
      .ok { paths := ["lib", "lib/sub"] } := by rfl
  have hfailing : failingFiles alley ((alleyReader { paths := ["lib", "lib/sub"] } 1).keyedFiles
      ((alleyReader { paths := ["lib", "lib/sub"] } 1).reached { paths := ["lib", "lib/sub"] })) =
        [alleyFile, alleyFile] := by decide +kernel
  have htally := ReleaseReader.tally_failingFiles (named_ofList _) rfl hbranch
  have haborts := htally.aborts.2 (hfailing ▸ by decide)
  obtain ⟨files, hnodup, hfails, hmany⟩ := h.aborts.1 haborts
  have honly : files ⊆ [alleyFile] := by
    intro file hfile
    have hmem := (ReleaseReader.fails_iff hbranch).1 (hfails file hfile)
    have hpair : file ∈ [alleyFile, alleyFile] := hfailing ▸ hmem
    simpa using hpair
  exact absurd (List.Nodup.subperm hnodup honly).length_le (Nat.not_le.2 hmany)

end ApiCatalog
