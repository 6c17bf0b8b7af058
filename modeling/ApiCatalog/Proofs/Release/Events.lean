import ApiCatalog.Proofs.Dictionary
import ApiCatalog.Proofs.FileSelection
import ApiCatalog.Release

/-!
# A release is read as one list of events

What a run comes to depends on the files alone: a path is not there, a file gives a result, or the
run cannot go on (`events`). A strict run gathers the files of a directory first and a permissive
one records them one by one, yet either plays these events in order (`alike_run`). If no event ends
the run, all of them are reported (`eq_after_of_read`), and their results are those of the files
that are read, each under its key (`results_branchEvents`).
-/

namespace ApiCatalog

/-- What a run comes to. -/
inductive Event where
  /-- Something is configured that is not there. -/
  | missing (path : String)
  /-- A file is read under a key. -/
  | file (key : String) (result : Except Error FileEntry)
  /-- The run cannot go on. -/
  | stop (error : Error)

namespace Event

/-- The path that is not there. -/
def missing? : Event → Option String
  | .missing path => some path
  | _ => none

/-- What a file gives, under its key. -/
def file? : Event → Option (String × Except Error FileEntry)
  | .file key result => some (key, result)
  | _ => none

/-- What ends a strict run. -/
def error? : Event → Option Error
  | .file _ (.error error) => some error
  | .stop error => some error
  | _ => none

/-- What ends any run. -/
def isStop : Event → Bool
  | .stop _ => true
  | _ => false

end Event

/-- What reading files gives, under their keys and in the order in which they are read. -/
abbrev Results := List (String × Except Error FileEntry)

namespace Results

variable {rs : Results} {key : String}

/-- The entries of the files that can be read. -/
def entries (rs : Results) : List (String × FileEntry) :=
  rs.filterMap fun s => s.2.toOption.map (s.1, ·)

/-- The files that cannot be read. -/
def failures (rs : Results) : List SkippedFile :=
  rs.filterMap fun s =>
    match s.2 with
    | .ok _ => none
    | .error e => some ⟨s.1, e⟩

/-- Entries are the results that are no errors. -/
theorem mem_entries {entry : FileEntry} : (key, entry) ∈ rs.entries ↔ (key, .ok entry) ∈ rs := by
  unfold entries
  rw [List.mem_filterMap]
  constructor
  · rintro ⟨⟨key', result⟩, hmem, hentry⟩
    cases result with
    | ok entry' =>
      obtain ⟨rfl, rfl⟩ := Prod.mk.inj (Option.some.inj hentry)
      exact hmem
    | error e => cases hentry
  · exact fun hmem => ⟨_, hmem, rfl⟩

/-- Failures are those that are. -/
theorem mem_failures {s : SkippedFile} : s ∈ rs.failures ↔ (s.key, .error s.error) ∈ rs := by
  unfold failures
  rw [List.mem_filterMap]
  constructor
  · rintro ⟨⟨key, result⟩, hmem, hs⟩
    cases result with
    | ok entry => cases hs
    | error e =>
      obtain rfl := Option.some.inj hs
      exact hmem
  · exact fun hmem => ⟨_, hmem, rfl⟩

end Results

/-- What the files among events give. -/
def results (events : List Event) : Results := events.filterMap Event.file?

theorem results_append (events more : List Event) :
    results (events ++ more) = results events ++ results more := List.filterMap_append

theorem results_flatMap (paths : List String) (events : String → List Event) :
    results (paths.flatMap events) = paths.flatMap fun path => results (events path) := by
  induction paths with
  | nil => rfl
  | cons path paths ih => rw [List.flatMap_cons, List.flatMap_cons, ← ih, results_append]

/-- Results are those of the files that are met. -/
theorem mem_results_iff {events : List Event} {key : String} {result : Except Error FileEntry} :
    (key, result) ∈ results events ↔ .file key result ∈ events := by
  unfold results
  rw [List.mem_filterMap]
  constructor
  · rintro ⟨event, hevent, hfile⟩
    match event, hfile with
    | .file key result, hfile =>
      cases hfile
      exact hevent
  · exact fun hevent => ⟨_, hevent, rfl⟩

namespace Report

/-- The report with these aliases. -/
def withAliases (r : Report) (aliases : List AliasEntry) : Report :=
  { r with document := { r.document with aliases } }

variable {r r' : Report} {events : List Event} {event : Event} {handling : ErrorHandling}
  {max max' : UInt64}

/-! ## Playing events -/

/-- The report with an event more. -/
def play (r : Report) (handling : ErrorHandling) : Event → Except Halt Report
  | .missing path => .ok (r.addMissing path)
  | .file key result => r.record handling key result
  | .stop error => .error ⟨error, r⟩

/-- The report with events more, one after the other. -/
def playAll (r : Report) (handling : ErrorHandling) (events : List Event) : Except Halt Report :=
  events.foldlM (·.play handling) r

/-- The report when all events are over, whatever they are. -/
def after (r : Report) (events : List Event) : Report where
  document :=
    { r.document with files := r.document.files.insertAll (results events).entries }
  skipped := r.skipped ++ (results events).failures
  missing := r.missing ++ events.filterMap Event.missing?

theorem playAll_cons (r : Report) (handling : ErrorHandling) (event : Event)
    (events : List Event) :
    r.playAll handling (event :: events) =
      r.play handling event >>= (·.playAll handling events) := List.foldlM_cons

theorem playAll_append (r : Report) (handling : ErrorHandling) (events more : List Event) :
    r.playAll handling (events ++ more) =
      r.playAll handling events >>= (·.playAll handling more) := List.foldlM_append

/-- Without events nothing is reported. -/
theorem after_nil (r : Report) : r.after [] = r := by
  simp [after, results, Results.entries, Results.failures, Dictionary.insertAll]

/-- The first event can be played before the others, unless it ends the run. -/
theorem after_of_play (h : r.play handling event = .ok r') :
    r'.after events = r.after (event :: events) := by
  have hskip : ∀ key error, r.skip handling key error = .ok r' →
      r' = { r with skipped := r.skipped ++ [⟨key, error⟩] } := by
    intro key error h
    unfold skip at h
    split at h
    · cases h
    · dsimp only at h
      split at h
      · cases h
      · exact (Except.ok.inj h).symm
  match event, h with
  | .missing path, h =>
    obtain rfl := Except.ok.inj h
    simp [after, results, addMissing, Event.file?, Event.missing?, List.filterMap_cons]
  | .file key (.ok entry), h =>
    obtain rfl := Except.ok.inj h
    simp [after, results, Results.entries, Results.failures, addFile, Event.file?, Event.missing?,
      Except.toOption, Dictionary.insertAll, List.filterMap_cons]
  | .file key (.error error), h =>
    obtain rfl := hskip key error h
    simp [after, results, Results.entries, Results.failures, Event.file?, Event.missing?,
      Except.toOption, List.filterMap_cons]

/-- A run that comes to its end reports all events; none of them ended it, and a strict one had no
file to leave out. -/
theorem eq_after_of_playAll (h : r.playAll handling events = .ok r') :
    r' = r.after events ∧ (∀ event ∈ events, event.isStop = false) ∧
      (handling.strictness = .strict → (results events).failures = []) := by
  induction events generalizing r with
  | nil =>
    obtain rfl := Except.ok.inj h
    exact ⟨(after_nil _).symm, nofun, fun _ => rfl⟩
  | cons event events ih =>
    rw [playAll_cons, bind_eq_ok_iff] at h
    obtain ⟨next, hplay, hrest⟩ := h
    obtain ⟨rfl, hgoes, hstrict⟩ := ih hrest
    refine ⟨after_of_play hplay, List.forall_mem_cons.2 ⟨?_, hgoes⟩, fun hmode => ?_⟩
    · cases event with
      | stop error => cases hplay
      | missing path => rfl
      | file key result => rfl
    · match event, hplay with
      | .missing _, _ => exact hstrict hmode
      | .file _ (.ok _), _ => exact hstrict hmode
      | .file key (.error error), hplay =>
        simp only [play, record, skip, hmode] at hplay
        cases hplay

/-- A strict run ends with the first event that is an error. -/
theorem mapError_playAll_strict (r : Report) (max : UInt64) (events : List Event) :
    (r.playAll ⟨.strict, max⟩ events).mapError Halt.error =
      match events.findSome? Event.error? with
      | none => .ok (r.after events)
      | some error => .error error := by
  induction events generalizing r with
  | nil => rw [after_nil]; rfl
  | cons event events ih =>
    rw [playAll_cons]
    match event with
    | .missing path =>
      have hplay : r.play ⟨.strict, max⟩ (.missing path) = .ok (r.addMissing path) := rfl
      rw [hplay, ← after_of_play hplay]
      exact ih (r.addMissing path)
    | .file key (.ok entry) =>
      have hplay : r.play ⟨.strict, max⟩ (.file key (.ok entry)) = .ok (r.addFile key entry) := rfl
      rw [hplay, ← after_of_play hplay]
      exact ih (r.addFile key entry)
    | .file key (.error error) => rfl
    | .stop error => rfl

end Report

/-! ## The events of a run -/

/-- Two outcomes are alike if they differ at most in what a strict run had reported when it was
stopped. -/
structure Alike (handling : ErrorHandling) (x y : Except Halt Report) : Prop where
  seen : x.mapError Halt.error = y.mapError Halt.error
  permissive : handling.strictness = .permissive → x = y

namespace Alike

variable {handling : ErrorHandling} {x y : Except Halt Report}
  {f g : Report → Except Halt Report}

theorem refl (handling : ErrorHandling) (x : Except Halt Report) : Alike handling x x :=
  ⟨rfl, fun _ => rfl⟩

/-- Steps that come to the like one by one come to the like together. -/
theorem bind (h : Alike handling x y) (hf : ∀ r, Alike handling (f r) (g r)) :
    Alike handling (x >>= f) (y >>= g) := by
  refine ⟨?_, fun hmode => ?_⟩
  · have hseen := h.seen
    match x, y, hseen with
    | .error halt, .error halt', hseen => exact congrArg Except.error (Except.error.inj hseen)
    | .ok r, .ok r', hseen =>
      obtain rfl := Except.ok.inj hseen
      exact (hf r).seen
  · rw [h.permissive hmode]
    cases y with
    | error halt => rfl
    | ok r => exact (hf r).permissive hmode

/-- Passes that do alike at each step do alike. -/
theorem foldlM {α : Type} {f : Report → α → Except Halt Report} {events : α → List Event}
    (h : ∀ r a, Alike handling (f r a) (r.playAll handling (events a))) (as : List α)
    (r : Report) : Alike handling (as.foldlM f r) (r.playAll handling (as.flatMap events)) := by
  induction as generalizing r with
  | nil => exact refl handling _
  | cons a as ih =>
    rw [List.foldlM_cons, List.flatMap_cons, Report.playAll_append]
    exact (h r a).bind fun next => ih next

end Alike

namespace ReleaseReader

variable (reader : ReleaseReader) (release : String) (branch : Branch)

/-- A configured directory is there. -/
def hasDirectory (dir : String) : Bool := reader.files.hasDirectory (reader.place dir)

/-- A configured file is there. -/
def hasFile (file : String) : Bool := reader.files.hasFile (reader.place file)

/-- The wanted files of a configured directory. -/
def list (dir : String) : Except Error (List RawPath) :=
  reader.selection.list reader.files (reader.place dir)

/-- A file that is found in a configured directory, with its key. -/
def found (path : RawPath) : String × RawPath := (FilePath.relativeKey path reader.checkout, path)

/-- A configured file, with its key. -/
def single (file : String) : String × RawPath := (FilePath.normalize file, reader.place file)

/-- A file is read under its key. -/
def fileEvent (keyed : String × RawPath) : Event := .file keyed.1 (parseFile reader.files keyed.2)

/-- What a run comes to in a configured directory. -/
def directoryEvents (dir : String) : List Event :=
  if reader.hasDirectory dir then
    match reader.list dir with
    | .ok paths => paths.map (reader.fileEvent ∘ reader.found)
    | .error error => [.stop error]
  else [.missing dir]

/-- What a run comes to at a configured file. -/
def singleEvents (file : String) : List Event :=
  if reader.hasFile file then [reader.fileEvent (reader.single file)] else [.missing file]

/-- What a run comes to at a configured classmap: it can be read, or not. -/
def aliasEvents (classmap : Option String) : List Event :=
  match reader.aliases classmap with
  | .ok _ => []
  | .error error => [.stop error]

/-- What a run comes to by the configuration of its branch. -/
def branchEvents : List Event :=
  branch.paths.flatMap reader.directoryEvents ++ branch.files.flatMap reader.singleEvents ++
    reader.aliasEvents branch.classmap

/-- What a run comes to. -/
def events : List Event :=
  match reader.config.branchFor release with
  | .ok branch => reader.branchEvents branch
  | .error error => [.stop error]

/-- The aliases of the classmap, as far as it can be read. -/
def aliasesOf : List AliasEntry :=
  match (reader.config.branchFor release).bind fun branch => reader.aliases branch.classmap with
  | .ok aliases => aliases
  | .error _ => []

/-- Files that are gathered first fail with the first of them that fails. -/
theorem mapM_parseKeyed (paths : List RawPath) :
    paths.mapM (parseKeyed reader.files reader.checkout) =
      let events := paths.map (reader.fileEvent ∘ reader.found)
      match events.findSome? Event.error? with
      | none => .ok (results events).entries
      | some error => .error error := by
  induction paths with
  | nil => rfl
  | cons path paths ih =>
    rw [List.mapM_cons, ih]
    unfold parseKeyed
    dsimp only
    rw [List.map_cons, List.findSome?_cons, results, results, List.filterMap_cons,
      Function.comp_apply, fileEvent, found]
    cases parseFile reader.files path with
    | error e => rfl
    | ok entry =>
      dsimp only [Event.error?, Event.file?]
      cases (paths.map (reader.fileEvent ∘ reader.found)).findSome? Event.error? <;> rfl

/-- Entries that are gathered are added as they are when they are recorded one by one. -/
theorem addFiles_eq_after (r : Report) {paths : List RawPath}
    (h : (paths.map (reader.fileEvent ∘ reader.found)).findSome? Event.error? = none) :
    r.addFiles (.ofList (results (paths.map (reader.fileEvent ∘ reader.found))).entries) =
      r.after (paths.map (reader.fileEvent ∘ reader.found)) := by
  have hfailures : (results (paths.map (reader.fileEvent ∘ reader.found))).failures = [] := by
    refine List.eq_nil_iff_forall_not_mem.2 fun s hs => ?_
    have hevent := mem_results_iff.1 (Results.mem_failures.1 hs)
    cases List.findSome?_eq_none_iff.1 h _ hevent
  have hmissing : (paths.map (reader.fileEvent ∘ reader.found)).filterMap Event.missing? = [] := by
    refine List.filterMap_eq_nil_iff.2 fun event hevent => ?_
    obtain ⟨path, -, rfl⟩ := List.mem_map.1 hevent
    rfl
  unfold Report.addFiles Report.after
  rw [Dictionary.merge_ofList, hfailures, hmissing, List.append_nil, List.append_nil]

/-- Adding files one by one is playing that each of them is met. -/
theorem addEach_eq (r : Report) (paths : List RawPath) :
    reader.addEach r paths =
      r.playAll reader.config.errorHandling (paths.map (reader.fileEvent ∘ reader.found)) := by
  unfold addEach Report.playAll
  rw [List.foldlM_map]
  rfl

/-- Either mode plays the events of a configured directory. -/
theorem alike_addDirectory (r : Report) (dir : String) :
    Alike reader.config.errorHandling (reader.addDirectory r dir)
      (r.playAll reader.config.errorHandling (reader.directoryEvents dir)) := by
  have hlist : reader.selection.list reader.files (reader.place dir) = reader.list dir := rfl
  unfold addDirectory directoryEvents hasDirectory
  simp only [addEach_eq]
  -- A missing directory is one event in both modes, so only one that is there matters.
  by_cases hthere : reader.files.hasDirectory (reader.place dir) = true
  · rw [if_pos hthere, if_neg (by simp [hthere])]
    rcases reader.config.errorHandling with ⟨strictness, max⟩
    cases strictness with
    -- In strict mode the files are read before any is added: the same, as the first failure stops.
    | strict =>
      refine ⟨?_, nofun⟩
      dsimp only
      unfold parseDirectory
      rw [hlist]
      cases reader.list dir with
      | error error => rfl
      | ok paths =>
        have hgathered := reader.mapM_parseKeyed paths
        dsimp only at hgathered ⊢
        rw [Report.mapError_playAll_strict]
        simp only [bind, Except.bind, hgathered]
        cases hfirst : (paths.map (reader.fileEvent ∘ reader.found)).findSome? Event.error? with
        | some error => rfl
        | none => exact congrArg Except.ok (reader.addFiles_eq_after r hfirst)
    -- The permissive loop is the events of the listing, one by one.
    | permissive =>
      dsimp only
      rw [hlist]
      cases reader.list dir with
      | error error => exact .refl _ _
      | ok paths => exact .refl _ _
  · rw [if_neg hthere, if_pos (by simpa using hthere)]
    exact .refl _ _

/-- Either mode plays the event of a configured file. -/
theorem addSingle_eq (r : Report) (file : String) :
    reader.addSingle r file =
      r.playAll reader.config.errorHandling (reader.singleEvents file) := by
  unfold addSingle singleEvents hasFile
  dsimp only
  by_cases hthere : reader.files.hasFile (reader.place file) = true
  · rw [if_pos hthere, if_neg (by simp [hthere])]
    exact (bind_pure _).symm
  · rw [if_neg hthere, if_pos (by simpa using hthere)]
    rfl

/-- Reading a release plays its events. -/
theorem alike_run :
    Alike reader.config.errorHandling (reader.run release)
      ((({} : Report).playAll reader.config.errorHandling (reader.events release)).map
        (·.withAliases (reader.aliasesOf release))) := by
  cases hbranch : reader.config.branchFor release with
  | error error =>
    unfold run events
    rw [hbranch]
    exact .refl _ _
  | ok branch =>
    -- The class map comes last and skips nothing.
    have haliases : ∀ r : Report,
        (r.within (reader.aliases branch.classmap) >>= fun aliases =>
          (return r.withAliases aliases : Except Halt Report)) =
        (r.playAll reader.config.errorHandling (reader.aliasEvents branch.classmap)).map
          (·.withAliases (reader.aliasesOf release)) := by
      intro r
      unfold aliasEvents aliasesOf
      rw [hbranch]
      dsimp only [Except.bind]
      cases haliases : reader.aliases branch.classmap <;> rfl
    -- The events are those of the directories, of the files and of the class map, in this order.
    have hwhole : (({} : Report).playAll reader.config.errorHandling (reader.events release)).map
          (·.withAliases (reader.aliasesOf release)) =
        ({} : Report).playAll reader.config.errorHandling
            (branch.paths.flatMap reader.directoryEvents) >>= fun r =>
          r.playAll reader.config.errorHandling
              (branch.files.flatMap reader.singleEvents) >>= fun r =>
            r.within (reader.aliases branch.classmap) >>= fun aliases =>
              return r.withAliases aliases := by
      simp only [haliases]
      unfold events branchEvents
      rw [hbranch]
      dsimp only
      rw [Report.playAll_append, Report.playAll_append]
      cases ({} : Report).playAll reader.config.errorHandling
          (branch.paths.flatMap reader.directoryEvents) with
      | error halt => rfl
      | ok r =>
        dsimp only [bind, Except.bind]
        cases r.playAll reader.config.errorHandling (branch.files.flatMap reader.singleEvents) <;> rfl
    have hsingle : ∀ r file, Alike reader.config.errorHandling (reader.addSingle r file)
        (r.playAll reader.config.errorHandling (reader.singleEvents file)) :=
      fun r file => reader.addSingle_eq r file ▸ .refl _ _
    rw [hwhole]
    unfold run
    rw [hbranch]
    -- Step by step: each directory and each file is its own events.
    exact (Alike.foldlM reader.alike_addDirectory branch.paths {}).bind fun r =>
      (Alike.foldlM hsingle branch.files r).bind fun r => .refl _ _

/-- Who reads a release, reports its events, with the aliases of its classmap. -/
theorem eq_after_of_read {reader : ReleaseReader} {release : String} {r : Report}
    (h : reader.read release = .ok r) :
    r = (({} : Report).after (reader.events release)).withAliases (reader.aliasesOf release) ∧
      (∀ event ∈ reader.events release, event.isStop = false) ∧
      (reader.config.errorHandling.strictness = .strict →
        (results (reader.events release)).failures = []) := by
  have hseen := (reader.alike_run release).seen
  have hread : (reader.run release).mapError Halt.error = .ok r := h
  rw [hread] at hseen
  cases hplay : ({} : Report).playAll reader.config.errorHandling (reader.events release) with
  | error halt =>
    rw [hplay] at hseen
    cases hseen
  | ok r' =>
    obtain ⟨rfl, hgoes⟩ := Report.eq_after_of_playAll hplay
    rw [hplay] at hseen
    exact ⟨Except.ok.inj hseen, hgoes⟩

/-! ## Which files are read -/

/-- The files of a configured directory, under their keys. -/
def keyedIn (dir : String) : List (String × RawPath) :=
  if reader.hasDirectory dir then ((reader.list dir).toOption.getD []).map reader.found else []

/-- The file that is configured, under its key, if it is there. -/
def keyedAt (file : String) : List (String × RawPath) :=
  if reader.hasFile file then [reader.single file] else []

/-- The configured directories and files, each as its files under their keys. -/
def sources : List (List (String × RawPath)) :=
  branch.paths.map reader.keyedIn ++ branch.files.map reader.keyedAt

/-- The files that are read, each under its key. -/
def keyedFiles : List (String × RawPath) := (reader.sources branch).flatten

/-- What the files at paths give, under their keys. -/
def resultsOf (files : FileSystem) (keyed : List (String × RawPath)) : Results :=
  keyed.map fun e => (e.1, parseFile files e.2)

/-- The file at `path` is one of those that are read: it is listed below a configured directory
that is there, or is itself configured and there. -/
def Reads (reader : ReleaseReader) (branch : Branch) (path : RawPath) : Prop :=
  (∃ dir ∈ branch.paths, reader.hasDirectory dir = true ∧
    ∃ paths, reader.list dir = .ok paths ∧ path ∈ paths) ∨
  ∃ file ∈ branch.files, reader.hasFile file = true ∧ path = reader.place file

/-- The files of a directory are those that are listed there. -/
theorem mem_keyedIn_iff {reader : ReleaseReader} {dir key : String} {path : RawPath} :
    (key, path) ∈ reader.keyedIn dir ↔ reader.hasDirectory dir = true ∧
      ∃ paths, reader.list dir = .ok paths ∧ path ∈ paths ∧
        key = FilePath.relativeKey path reader.checkout := by
  unfold keyedIn found
  split
  · next hthere =>
    cases reader.list dir with
    | error error => simp [Except.toOption]
    | ok paths =>
      simp only [Except.toOption, Option.getD_some, List.mem_map, Prod.mk.injEq, hthere, true_and,
        Except.ok.injEq, exists_eq_left']
      constructor
      · rintro ⟨_, hpath, rfl, rfl⟩
        exact ⟨hpath, rfl⟩
      · rintro ⟨hpath, rfl⟩
        exact ⟨path, hpath, rfl, rfl⟩
  · next hmissing => simp [hmissing]

/-- A single file is met if it is there. -/
theorem mem_keyedAt_iff {reader : ReleaseReader} {file key : String} {path : RawPath} :
    (key, path) ∈ reader.keyedAt file ↔ reader.hasFile file = true ∧
      path = reader.place file ∧ key = FilePath.normalize file := by
  unfold keyedAt single
  split
  · next hthere => simp [hthere, and_comm]
  · next hmissing => simp [hmissing]

/-- A file is read under a key that a directory or its own configuration gives it. -/
theorem mem_keyedFiles_iff {reader : ReleaseReader} {branch : Branch} {key : String}
    {path : RawPath} :
    (key, path) ∈ reader.keyedFiles branch ↔
      (∃ dir ∈ branch.paths, (key, path) ∈ reader.keyedIn dir) ∨
        ∃ file ∈ branch.files, (key, path) ∈ reader.keyedAt file := by
  simp [keyedFiles, sources]

/-- A file is read if it is put under some key. -/
theorem reads_iff {reader : ReleaseReader} {branch : Branch} {path : RawPath} :
    reader.Reads branch path ↔ ∃ key, (key, path) ∈ reader.keyedFiles branch := by
  simp only [mem_keyedFiles_iff, mem_keyedIn_iff, mem_keyedAt_iff]
  constructor
  · rintro (⟨dir, hdir, hthere, paths, hlist, hpath⟩ | ⟨file, hfile, hthere, rfl⟩)
    · exact ⟨_, .inl ⟨dir, hdir, hthere, paths, hlist, hpath, rfl⟩⟩
    · exact ⟨_, .inr ⟨file, hfile, hthere, rfl, rfl⟩⟩
  · rintro ⟨key, ⟨dir, hdir, hthere, paths, hlist, hpath, -⟩ | ⟨file, hfile, hthere, rfl, -⟩⟩
    · exact .inl ⟨dir, hdir, hthere, paths, hlist, hpath⟩
    · exact .inr ⟨file, hfile, hthere, rfl⟩

theorem results_map_fileEvent (keyed : List (String × RawPath)) :
    results (keyed.map reader.fileEvent) = resultsOf reader.files keyed := by
  unfold results resultsOf
  rw [List.filterMap_map, ← List.filterMap_eq_map]
  rfl

/-- The results of a directory are those of the files listed there. -/
theorem results_directoryEvents (dir : String) :
    results (reader.directoryEvents dir) = resultsOf reader.files (reader.keyedIn dir) := by
  unfold directoryEvents keyedIn
  split
  · cases reader.list dir with
    | error error => rfl
    | ok paths =>
      dsimp only [Except.toOption, Option.getD_some]
      rw [← results_map_fileEvent, List.map_map]
  · rfl

/-- That of a single file is its own. -/
theorem results_singleEvents (file : String) :
    results (reader.singleEvents file) = resultsOf reader.files (reader.keyedAt file) := by
  unfold singleEvents keyedAt
  split <;> rfl

/-- The results of a run are those of the files that are read. -/
theorem results_branchEvents :
    results (reader.branchEvents branch) = resultsOf reader.files (reader.keyedFiles branch) := by
  have haliases : results (reader.aliasEvents branch.classmap) = [] := by
    unfold aliasEvents
    split <;> rfl
  unfold branchEvents
  rw [results_append, results_append, results_flatMap, results_flatMap, haliases, List.append_nil,
    funext reader.results_directoryEvents, funext reader.results_singleEvents]
  unfold keyedFiles sources resultsOf
  rw [List.flatten_append, List.map_append, ← List.flatMap_def, ← List.flatMap_def,
    List.map_flatMap, List.map_flatMap]

end ReleaseReader
end ApiCatalog
