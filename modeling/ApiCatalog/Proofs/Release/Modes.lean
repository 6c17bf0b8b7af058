import ApiCatalog.Proofs.Release.Events

/-!
# The two modes

A strict and a permissive run play the same events, and go together event by event until a file
fails (`together`). Then the strict run ends with the error of that file, and the permissive one has
skipped a file for good (`strict_permissive_agree`).
-/

namespace ApiCatalog

namespace Report

variable {r : Report} {events : List Event} {event : Event} {max max' : UInt64}

/-- The run has left out a file. -/
def Skips (outcome : Except Halt Report) : Prop :=
  (∃ r, outcome = .ok r ∧ r.skipped ≠ []) ∨
    ∃ halt, outcome = .error halt ∧ halt.report.skipped ≠ []

/-- What is left out stays left out. -/
theorem skips_play (h : r.skipped ≠ []) (handling : ErrorHandling) (event : Event) :
    Skips (r.play handling event) := by
  match event with
  | .missing path => exact .inl ⟨_, rfl, h⟩
  | .file key (.ok entry) => exact .inl ⟨_, rfl, h⟩
  | .file key (.error error) =>
    simp only [play, record, skip]
    split
    · exact .inr ⟨_, rfl, h⟩
    · split
      · exact .inr ⟨_, rfl, by simp⟩
      · exact .inl ⟨_, rfl, by simp⟩
  | .stop error => exact .inr ⟨_, rfl, h⟩

/-- What has been skipped stays skipped. -/
theorem Skips.bind {outcome : Except Halt Report} {f : Report → Except Halt Report}
    (h : Skips outcome) (hf : ∀ r, r.skipped ≠ [] → Skips (f r)) : Skips (outcome >>= f) := by
  rcases h with ⟨r, rfl, hr⟩ | ⟨halt, rfl, hhalt⟩
  · exact hf r hr
  · exact .inr ⟨halt, rfl, hhalt⟩

theorem skips_playAll (h : r.skipped ≠ []) (handling : ErrorHandling) (events : List Event) :
    Skips (r.playAll handling events) := by
  induction events generalizing r with
  | nil => exact .inl ⟨r, rfl, h⟩
  | cons event events ih =>
    rw [playAll_cons]
    exact (skips_play h handling event).bind fun r hr => ih hr

/-- How a strict and a permissive run of the same events end. -/
inductive Together (events : List Event) : Except Halt Report → Except Halt Report → Prop where
  /-- Nothing fails. -/
  | reported {r : Report} (hskipped : r.skipped = []) : Together events (.ok r) (.ok r)
  /-- Both runs are stopped before a file fails. -/
  | stopped {halt : Halt} (hstop : .stop halt.error ∈ events)
      (hskipped : halt.report.skipped = []) : Together events (.error halt) (.error halt)
  /-- A file fails. -/
  | failed {key : String} {halt : Halt} {permissive : Except Halt Report}
      (hfile : .file key (.error halt.error) ∈ events) (hskips : Skips permissive) :
      Together events (.error halt) permissive

theorem Together.cons {strict permissive : Except Halt Report}
    (h : Together events strict permissive) (event : Event) :
    Together (event :: events) strict permissive := by
  cases h with
  | reported hskipped => exact .reported hskipped
  | stopped hstop hskipped => exact .stopped (List.mem_cons_of_mem _ hstop) hskipped
  | failed hfile hskips => exact .failed (List.mem_cons_of_mem _ hfile) hskips

/-- Until a file fails, the modes do the same. -/
theorem together (h : r.skipped = []) (max max' : UInt64) (events : List Event) :
    Together events (r.playAll ⟨.strict, max⟩ events) (r.playAll ⟨.permissive, max'⟩ events) := by
  -- On the events: as long as nothing is skipped the two modes have the same report.
  induction events generalizing r with
  | nil => exact .reported h
  | cons event events ih =>
    rw [playAll_cons, playAll_cons]
    match event with
    | .missing path => exact (ih (r := r.addMissing path) h).cons _
    | .file key (.ok entry) => exact (ih (r := r.addFile key entry) h).cons _
    | .stop error =>
      have hstop : Event.stop (Halt.mk error r).error ∈ Event.stop error :: events :=
        List.mem_cons_self
      exact .stopped hstop h
    -- Here strict mode ends; permissive mode goes on, and what it has skipped stays skipped.
    | .file key (.error error) =>
      have hfirst : Skips (r.play ⟨.permissive, max'⟩ (.file key (.error error))) := by
        simp only [play, record, skip]
        split
        · exact .inr ⟨_, rfl, by simp⟩
        · exact .inl ⟨_, rfl, by simp⟩
      have hfile : Event.file key (.error (Halt.mk error r).error) ∈
          Event.file key (.error error) :: events := List.mem_cons_self
      exact .failed hfile (hfirst.bind fun r hr => skips_playAll hr _ events)

end Report

namespace ReleaseReader

variable {reader : ReleaseReader} {release : String} {branch : Branch}

/-- The reader with failing files dealt with as said. -/
def withHandling (reader : ReleaseReader) (handling : ErrorHandling) : ReleaseReader :=
  { reader with config := { reader.config with errorHandling := handling } }

/-- How the outcomes of a strict and of a permissive run of one reader go together. Of the permissive
run it counts what it had skipped when it stopped. -/
structure ModesAgree (reader : ReleaseReader) (release : String) (strict : Except Error Report)
    (permissive : Except Halt Report) : Prop where
  /-- What a strict run reports, a permissive one reports too, and it skips nothing. -/
  kept : ∀ r, strict = .ok r → permissive = .ok r ∧ r.skipped = []
  /-- A permissive run that skips nothing reports what a strict one does. -/
  unskipped : ∀ r, permissive = .ok r → r.skipped = [] → strict = .ok r
  /-- Where a permissive run skips a file or gives up, a strict one fails as one of the files does
  that cannot be parsed. -/
  failing : Report.Skips permissive ∨
      (∃ count report, permissive = .error ⟨.tooManyFailures count, report⟩) →
    ∃ branch path e, reader.config.branchFor release = .ok branch ∧ reader.Reads branch path ∧
      parseFile reader.files path = .error e ∧ strict = .error e
  /-- Any other error that a permissive run comes to, with nothing skipped so far, is that of a
  strict one. -/
  other : ∀ halt, permissive = .error halt → halt.report.skipped = [] → strict = .error halt.error

/-- Choosing the branch fails for want of a configuration only. -/
theorem branchFor_error {config : Config} {e : Error} (h : config.branchFor release = .error e) :
    e = .notConfigured release (majorBranch release) := by
  unfold Config.branchFor at h
  simp only at h
  split at h
  · split at h
    · exact (Except.error.inj h).symm
    · cases h
  · exact (Except.error.inj h).symm

/-- Reading the classmap fails if its file cannot be read. -/
theorem exists_file_of_aliases_error {classmap : Option String} {e : Error}
    (h : reader.aliases classmap = .error e) : ∃ problem, e = .file problem := by
  unfold aliases parseClassmap at h
  cases classmap with
  | none => cases h
  | some path =>
    dsimp only at h
    split at h
    · split at h
      · exact ⟨_, (Except.error.inj h).symm⟩
      · cases h
    · cases h

/-- A run is not stopped by the number of files that fail, but by files that are not there or cannot
be opened. -/
theorem ne_tooManyFailures {error : Error} (h : .stop error ∈ reader.events release)
    (count : Nat) : error ≠ .tooManyFailures count := by
  unfold events at h
  cases hbranch : reader.config.branchFor release with
  | error e =>
    rw [hbranch, List.mem_singleton] at h
    cases h
    rw [branchFor_error hbranch]
    nofun
  | ok branch =>
    rw [hbranch] at h
    unfold branchEvents at h
    -- A stop comes from a directory that cannot be walked or from the class map.
    simp only [List.mem_append, List.mem_flatMap] at h
    rcases h with (⟨dir, -, h⟩ | ⟨file, -, h⟩) | h
    · unfold directoryEvents at h
      split at h
      · split at h
        · obtain ⟨_, -, hfile⟩ := List.mem_map.1 h
          cases hfile
        · next hlist =>
          cases List.mem_singleton.1 h
          obtain ⟨path, problem, rfl⟩ := FileSelection.exists_walk_of_list_error hlist
          nofun
      · cases List.mem_singleton.1 h
    · unfold singleEvents at h
      split at h <;> cases List.mem_singleton.1 h
    · unfold aliasEvents at h
      split at h
      · cases h
      · next haliases =>
        cases List.mem_singleton.1 h
        obtain ⟨problem, rfl⟩ := exists_file_of_aliases_error haliases
        nofun

/-- A result of a run is what one of the files gives that are read. -/
theorem exists_reads_of_mem_events {key : String} {result : Except Error FileEntry}
    (h : .file key result ∈ reader.events release) :
    ∃ branch path, reader.config.branchFor release = .ok branch ∧ reader.Reads branch path ∧
      parseFile reader.files path = result := by
  unfold events at h
  cases hbranch : reader.config.branchFor release with
  | error e =>
    rw [hbranch] at h
    cases List.mem_singleton.1 h
  | ok branch =>
    rw [hbranch, ← mem_results_iff, results_branchEvents] at h
    obtain ⟨e, he, heq⟩ := List.mem_map.1 h
    obtain ⟨rfl, rfl⟩ := Prod.mk.inj heq
    exact ⟨branch, e.2, rfl, reads_iff.2 ⟨e.1, he⟩, rfl⟩

/-- Runs that go together agree. -/
theorem modesAgree_of_together {strict permissive : Except Halt Report} {f : Report → Report}
    (hf : ∀ r, (f r).skipped = r.skipped)
    (h : Report.Together (reader.events release) strict permissive) :
    ModesAgree reader release ((strict.map f).mapError Halt.error) (permissive.map f) := by
  -- Whatever is done with the aliases at the end, a report skips what it skipped.
  have hskips : ∀ x : Except Halt Report, Report.Skips (x.map f) ↔ Report.Skips x := by
    rintro (halt | r)
    · simp [Report.Skips, Except.map]
    · simp [Report.Skips, Except.map, hf]
  -- How the two runs ended together says which of the four fields there is something to show for.
  cases h with
  | @reported r hskipped =>
    have hnone : (f r).skipped = [] := (hf r).trans hskipped
    refine ⟨fun r' h => ?_, fun r' h _ => ?_, ?_, nofun⟩
    · obtain rfl := Except.ok.inj h
      exact ⟨rfl, hnone⟩
    · obtain rfl := Except.ok.inj h
      rfl
    · rintro (h | ⟨count, report, h⟩)
      · have hleft : Report.Skips (.ok r) := (hskips _).1 h
        simp [Report.Skips, hskipped] at hleft
      · cases h
  | @stopped halt hstop hskipped =>
    refine ⟨nofun, nofun, ?_, fun halt' h _ => ?_⟩
    · rintro (h | ⟨count, report, h⟩)
      · have hleft : Report.Skips (.error halt) := (hskips _).1 h
        simp [Report.Skips, hskipped] at hleft
      · obtain rfl : halt = _ := Except.error.inj h
        exact absurd rfl (ne_tooManyFailures hstop count)
    · obtain rfl : halt = halt' := Except.error.inj h
      rfl
  -- Permissive mode has skipped the file, so the fields that say it skipped nothing do not apply.
  | @failed key halt permissive hfile hskipped =>
    have hleft : Report.Skips (permissive.map f) := (hskips permissive).2 hskipped
    obtain ⟨branch, path, hbranch, hreads, hparse⟩ := exists_reads_of_mem_events hfile
    refine ⟨nofun, fun r h hnone => ?_, fun _ => ⟨branch, path, _, hbranch, hreads, hparse, rfl⟩,
      fun halt' h hnone => ?_⟩
    · simp [h, Report.Skips, hnone] at hleft
    · simp [h, Report.Skips, hnone] at hleft

/-- A strict and a permissive run agree, however many files the permissive one may skip. -/
theorem strict_permissive_agree (reader : ReleaseReader) (release : String) (max max' : UInt64) :
    ModesAgree reader release ((reader.withHandling ⟨.strict, max⟩).read release)
      ((reader.withHandling ⟨.permissive, max'⟩).run release) := by
  have hstrict := ((reader.withHandling ⟨.strict, max⟩).alike_run release).seen
  have hpermissive :=
    ((reader.withHandling ⟨.permissive, max'⟩).alike_run release).permissive rfl
  have htogether : Report.Together (reader.events release)
      (({} : Report).playAll ⟨.strict, max⟩ (reader.events release))
      (({} : Report).playAll ⟨.permissive, max'⟩ (reader.events release)) :=
    Report.together rfl max max' _
  unfold read
  rw [hstrict, hpermissive]
  exact modesAgree_of_together (fun _ => rfl) htogether

end ReleaseReader
end ApiCatalog
