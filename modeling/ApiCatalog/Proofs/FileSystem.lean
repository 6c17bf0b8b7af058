import ApiCatalog.Proofs.FilePath
import ApiCatalog.Proofs.FileTree

/-!
# Where paths lead

A path that can be followed leads to the place whose names it spells, and something lies there
(`locate_spec`). So a place can be told from the path alone, whatever the tree. Paths that are
joined spell what the second one does from the place of the first (`destination_join`); a relative
path that never goes back behind its start adds the names that it spells
(`destination_join_of_staysInside`).
-/

namespace ApiCatalog

/-- Two steps succeed if the first one does, and the second one on what it gives. -/
theorem bind_eq_ok_iff {ε α β : Type} {x : Except ε α} {f : α → Except ε β} {b : β} :
    x >>= f = .ok b ↔ ∃ a, x = .ok a ∧ f a = .ok b := by
  cases x with
  | error e =>
    constructor
    · intro h
      cases h
    · rintro ⟨a, ha, -⟩
      cases ha
  | ok a =>
    constructor
    · exact fun h => ⟨a, rfl, h⟩
    · rintro ⟨a', ha, h⟩
      cases ha
      exact h

namespace FilePath

/-- From the names passed so far, pieces never go back behind the start. -/
def staysBelow : List RawPath → List RawPath → Bool
  | _, [] => true
  | passed, piece :: ps =>
    !(piece == [dot, dot] && passed.isEmpty) && staysBelow (turn passed piece) ps

/-- The path never goes back behind its start. -/
def StaysInside (path : RawPath) : Prop := staysBelow [] (pieces path) = true

instance (path : RawPath) : Decidable (StaysInside path) :=
  inferInstanceAs (Decidable (staysBelow [] (pieces path) = true))

variable {path : RawPath} {passed ps : List RawPath}

/-- A piece that does not go back behind the start does not touch what lies in front. -/
theorem turn_append {piece : RawPath} (h : piece = [dot, dot] → passed ≠ [])
    (names : List RawPath) : turn (names ++ passed) piece = names ++ turn passed piece := by
  unfold turn
  split
  · rfl
  split
  · next hup => exact List.dropLast_append_of_ne_nil (h hup)
  · rw [List.append_assoc]

/-- A path stays below by its pieces: none of them goes back where nothing was passed. -/
theorem staysBelow_cons_iff {piece : RawPath} :
    staysBelow passed (piece :: ps) = true ↔
      (piece = [dot, dot] → passed ≠ []) ∧ staysBelow (turn passed piece) ps = true := by
  rw [staysBelow, Bool.and_eq_true]
  refine and_congr_left fun _ => ?_
  by_cases hup : piece = [dot, dot] <;> simp [hup]

/-- What a path passes that stays below lies behind where it started. -/
theorem foldl_turn_of_staysBelow (h : staysBelow passed ps = true) (names : List RawPath) :
    ps.foldl turn (names ++ passed) = names ++ ps.foldl turn passed := by
  induction ps generalizing passed with
  | nil => rfl
  | cons piece ps ih =>
    obtain ⟨hpiece, hrest⟩ := staysBelow_cons_iff.1 h
    rw [List.foldl_cons, turn_append hpiece, ih hrest, List.foldl_cons]

/-- A path that stays inside adds its names to those of its start. -/
theorem StaysInside.foldl_turn (h : StaysInside path) (names : List RawPath) :
    (pieces path).foldl turn names = names ++ settled path := by
  have hfold := foldl_turn_of_staysBelow h names
  rwa [List.append_nil] at hfold

/-- A path that never goes back stays below. -/
theorem staysBelow_of_not_mem (h : [dot, dot] ∉ ps) : staysBelow passed ps = true := by
  induction ps generalizing passed with
  | nil => rfl
  | cons piece ps ih =>
    obtain ⟨hpiece, hrest⟩ := not_or.1 (mt List.mem_cons.2 h)
    exact staysBelow_cons_iff.2 ⟨fun hup => absurd hup.symm hpiece, ih hrest⟩

end FilePath

namespace FileSystem

open FilePath FileTree

variable {fs : FileSystem} {path base rest root piece : RawPath} {names ms ns ps : List RawPath}
  {node : FileTree}

/-- Only no problem lets work go on. -/
theorem allow_eq_ok_iff {problem : Option FileProblem} : allow problem = .ok () ↔ problem = none := by
  cases problem <;> simp [allow]

/-! ## Pieces -/

/-- A piece that can be followed leads to what it spells, from a directory that may be entered. -/
theorem step_eq_ok_iff : fs.step names piece = .ok ms ↔
    ∃ access entries, fs.root.follow names = some (.directory access entries) ∧
      (piece = [] ∨ access.enter = none) ∧ turn names piece = ms ∧
      ∃ node, fs.root.follow ms = some node := by
  -- The last test of a step: what the name leads to has to exist.
  have hturns : (if (fs.root.follow (turn names piece)).isSome then
        (return turn names piece : Except FileProblem (List RawPath)) else throw .notFound) =
      .ok ms ↔ turn names piece = ms ∧ ∃ node, fs.root.follow ms = some node := by
    rw [← Option.isSome_iff_exists]
    split
    · next hsome =>
      constructor
      · intro h
        cases h
        exact ⟨rfl, hsome⟩
      · rintro ⟨rfl, -⟩
        rfl
    · next hnone =>
      constructor
      · intro h
        cases h
      · rintro ⟨rfl, hsome⟩
        exact absurd hsome hnone
  unfold step
  cases hnode : fs.root.follow names with
  | none => simp
  | some node =>
    cases node with
    | file access bytes => simp
    | directory access entries =>
      simp only [Option.some.injEq, FileTree.directory.injEq]
      -- Only an empty piece is let through a directory that may not be entered.
      by_cases hempty : piece = []
      · rw [if_neg (not_not.2 hempty)]
        refine hturns.trans ⟨fun h => ⟨access, entries, ⟨rfl, rfl⟩, .inl hempty, h⟩, ?_⟩
        rintro ⟨-, -, -, -, h⟩
        exact h
      · rw [if_pos hempty, bind_eq_ok_iff]
        constructor
        · rintro ⟨⟨⟩, henter, h⟩
          exact ⟨access, entries, ⟨rfl, rfl⟩, .inr (allow_eq_ok_iff.1 henter), hturns.1 h⟩
        · rintro ⟨_, _, ⟨rfl, rfl⟩, henter, h⟩
          exact ⟨(), allow_eq_ok_iff.2 (henter.resolve_left hempty), hturns.2 h⟩

/-- A path is followed by parts. -/
theorem walk_append (fs : FileSystem) (names ps qs : List RawPath) :
    fs.walk names (ps ++ qs) = fs.walk names ps >>= (fs.walk · qs) := List.foldlM_append

theorem walk_cons (fs : FileSystem) (names : List RawPath) (piece : RawPath) (ps : List RawPath) :
    fs.walk names (piece :: ps) = fs.step names piece >>= (fs.walk · ps) := List.foldlM_cons

/-- Pieces that can be followed lead to what they spell. -/
theorem eq_of_walk (h : fs.walk names ps = .ok ms) : ps.foldl turn names = ms := by
  induction ps generalizing names with
  | nil =>
    cases h
    rfl
  | cons piece ps ih =>
    rw [walk_cons, bind_eq_ok_iff] at h
    obtain ⟨next, hstep, hrest⟩ := h
    obtain ⟨-, -, -, -, rfl, -⟩ := step_eq_ok_iff.1 hstep
    exact ih hrest

/-- Something lies where pieces lead. -/
theorem exists_follow_of_walk (hps : ps ≠ []) (h : fs.walk names ps = .ok ms) :
    ∃ node, fs.root.follow ms = some node := by
  obtain ⟨init, last, rfl⟩ := (List.eq_nil_or_concat' ps).resolve_left hps
  rw [walk_append, bind_eq_ok_iff] at h
  obtain ⟨middle, -, hlast⟩ := h
  rw [walk_cons, bind_eq_ok_iff] at hlast
  obtain ⟨_, hstep, ⟨⟩⟩ := hlast
  obtain ⟨-, -, -, -, -, hnode⟩ := step_eq_ok_iff.1 hstep
  exact hnode

/-! ## Paths -/

/-- A path that can be followed leads to the place that it spells, and something lies there. -/
theorem locate_spec (h : fs.locate path = .ok names) :
    path ≠ [] ∧ fs.destination path = names ∧ ∃ node, fs.root.follow names = some node := by
  unfold locate at h
  split at h
  · cases h
  · next hne => exact ⟨hne, eq_of_walk h, exists_follow_of_walk (pieces_ne_nil path) h⟩

/-- A path leads where its pieces lead. -/
theorem locate_of_ne_nil (hpath : path ≠ []) :
    fs.locate path = fs.walk (fs.start path) (pieces path) := if_neg hpath

/-- What a path leads to lies under the names it leads to. -/
theorem node_eq_ok_iff : fs.node path = .ok node ↔
    ∃ names, fs.locate path = .ok names ∧ fs.root.follow names = some node := by
  unfold FileSystem.node
  rw [bind_eq_ok_iff]
  refine exists_congr fun names => and_congr_right fun _ => ?_
  cases fs.root.follow names <;> simp

theorem ne_nil_of_node (h : fs.node path = .ok node) : path ≠ [] := by
  obtain ⟨names, hplace, -⟩ := node_eq_ok_iff.1 h
  exact (locate_spec hplace).1

/-- What a path leads to lies where it spells. -/
theorem follow_of_node (h : fs.node path = .ok node) :
    fs.root.follow (fs.destination path) = some node := by
  obtain ⟨names, hplace, hnode⟩ := node_eq_ok_iff.1 h
  rwa [(locate_spec hplace).2.1]

/-- A file is there if the path leads to one. -/
theorem hasFile_iff : fs.hasFile path = true ↔ ∃ access bytes, fs.node path = .ok (.file access bytes) := by
  unfold hasFile
  cases fs.node path with
  | error problem => simp
  | ok node => cases node <;> simp [isDirectory]

/-- The last piece of a path that leads to a file is the name of the file, and its directory may be
entered. -/
theorem exists_name_of_locate_file {access : Access} {bytes : List UInt8}
    (h : fs.locate path = .ok names) (hfile : fs.root.follow names = some (.file access bytes)) :
    ∃ front name dirAccess entries, names = front ++ [name] ∧ isEntryName name = true ∧
      (pieces path).getLast? = some name ∧
      fs.root.follow front = some (.directory dirAccess entries) ∧ dirAccess.enter = none := by
  rw [locate_of_ne_nil (locate_spec h).1] at h
  obtain ⟨init, last, hpieces⟩ := (List.eq_nil_or_concat' (pieces path)).resolve_left
    (pieces_ne_nil path)
  rw [hpieces, walk_append, bind_eq_ok_iff] at h
  obtain ⟨front, -, hlast⟩ := h
  rw [walk_cons, bind_eq_ok_iff] at hlast
  obtain ⟨_, hstep, ⟨⟩⟩ := hlast
  obtain ⟨dirAccess, entries, hdirectory, henter, hturn, -⟩ := step_eq_ok_iff.1 hstep
  -- A piece that is no name leads to a directory.
  have hname : isEntryName last = true := by
    rw [isEntryName_iff]
    refine ⟨?_, ?_, ?_⟩
    · rintro rfl
      rw [turn_nil] at hturn
      cases hdirectory.symm.trans (hturn ▸ hfile)
    · rintro rfl
      rw [turn_dot] at hturn
      cases hdirectory.symm.trans (hturn ▸ hfile)
    · rintro rfl
      rw [turn_up] at hturn
      obtain rfl | ⟨above, n, rfl⟩ := List.eq_nil_or_concat' front
      · cases hdirectory.symm.trans (hturn ▸ hfile)
      · rw [List.dropLast_concat] at hturn
        obtain ⟨_, _, habove⟩ := exists_directory_of_follow (List.cons_ne_nil n []) hdirectory
        cases habove.symm.trans (hturn ▸ hfile)
  rw [turn_of_isEntryName hname] at hturn
  exact ⟨front, last, dirAccess, entries, hturn.symm, hname, by rw [hpieces, List.getLast?_concat],
    hdirectory, henter.resolve_left (isEntryName_iff.1 hname).1⟩

/-- What lies under names, if the last of them may be looked up. -/
def nodeAt (fs : FileSystem) (names : List RawPath) : Except FileProblem FileTree :=
  match fs.root.follow names.dropLast with
  | some (.directory access _) => do
    allow access.enter
    (fs.root.follow names).elim (.error .notFound) .ok
  | _ => .error .notFound

/-- A file is the one under the names that its path spells. -/
theorem node_eq_nodeAt_of_file {access : Access} {bytes : List UInt8}
    (h : fs.node path = .ok (.file access bytes)) :
    fs.node path = fs.nodeAt (fs.destination path) := by
  obtain ⟨names, hplace, hfile⟩ := node_eq_ok_iff.1 h
  obtain ⟨front, name, dirAccess, entries, rfl, -, -, hdirectory, henter⟩ :=
    exists_name_of_locate_file hplace hfile
  unfold nodeAt
  rw [h, (locate_spec hplace).2.1, List.dropLast_concat, hdirectory]
  dsimp only
  rw [henter, hfile]
  rfl

/-! ## Joined paths -/

/-- A joined path starts where its first part does. -/
theorem start_join (hrest : isAbsolute rest = false) (hbase : base ≠ []) :
    fs.start (join base rest) = fs.start base := by
  unfold start
  rw [isAbsolute_join hrest hbase]

/-- A joined path spells what its second part does from the place of the first. -/
theorem destination_join (hrest : isAbsolute rest = false) (base : RawPath) :
    fs.destination (join base rest) = (pieces rest).foldl turn (fs.destination base) := by
  by_cases hbase : base = []
  · subst hbase
    rw [join_nil_left]
    unfold destination
    have hstart : fs.start rest = fs.start [] := by
      unfold start
      rw [hrest]
      rfl
    rw [hstart]
    rfl
  · obtain ⟨front, hjoin, hfront⟩ := exists_pieces_join hrest hbase
    unfold destination
    rw [hjoin, List.foldl_append, start_join hrest hbase]
    rcases hfront with hfront | hfront
    · rw [hfront]
    · rw [hfront, List.foldl_append, List.foldl_cons, turn_nil, List.foldl_nil]

/-- A path that stays inside adds its names to those of the place in front. -/
theorem destination_join_of_staysInside (hrest : isAbsolute rest = false)
    (hinside : StaysInside rest) (base : RawPath) :
    fs.destination (join base rest) = fs.destination base ++ settled rest := by
  rw [destination_join hrest, hinside.foldl_turn]

/-- A name behind a path is followed from where the path leads. -/
theorem locate_join_name (hbase : fs.locate base = .ok names) (hname : IsName piece) :
    fs.locate (join base piece) = fs.step names piece := by
  have hrelative := relative_of_isName hname
  have hne := (locate_spec hbase).1
  obtain ⟨front, hjoin, hfront⟩ := exists_pieces_join hrelative hne
  have hreached : fs.walk (fs.start base) front = .ok names := by
    rw [locate_of_ne_nil hne] at hbase
    rcases hfront with hfront | hfront
    · rwa [hfront] at hbase
    · rw [hfront, walk_append, bind_eq_ok_iff] at hbase
      obtain ⟨ms, hms, hlast⟩ := hbase
      -- An empty piece stays where it is.
      have hstays := eq_of_walk hlast
      rw [List.foldl_cons, turn_nil] at hstays
      exact hms.trans (congrArg Except.ok hstays)
  rw [locate_of_ne_nil (join_ne_nil hname.ne_empty base), start_join hrelative hne, hjoin,
    pieces_of_isName hname, walk_append, hreached]
  exact (walk_cons fs names piece []).trans (bind_pure _)

/-- Names behind a path can be followed from where the path leads. -/
theorem locate_foldl_join (hbase : fs.locate base = .ok names) (hns : ∀ n ∈ ns, IsName n)
    (hwalk : fs.walk names ns = .ok ms) : fs.locate (ns.foldl join base) = .ok ms := by
  induction ns generalizing base names with
  | nil =>
    cases hwalk
    exact hbase
  | cons name ns ih =>
    obtain ⟨hname, hns⟩ := List.forall_mem_cons.1 hns
    rw [walk_cons, bind_eq_ok_iff] at hwalk
    obtain ⟨next, hstep, hrest⟩ := hwalk
    exact ih ((locate_join_name hbase hname).trans hstep) hns hrest

/-- A name that is joined to a path goes down by it. -/
theorem destination_join_name (hname : IsName piece) (base : RawPath) :
    fs.destination (join base piece) = fs.destination base ++ [piece] := by
  rw [destination_join (relative_of_isName hname), pieces_of_isName hname, List.foldl_cons,
    turn_of_isEntryName (isName_iff.1 hname).1, List.foldl_nil]

theorem destination_foldl_join (hns : ∀ n ∈ ns, IsName n) (root : RawPath) :
    fs.destination (ns.foldl join root) = fs.destination root ++ ns := by
  induction ns generalizing root with
  | nil => exact (List.append_nil _).symm
  | cons name ns ih =>
    rw [List.foldl_cons, ih (fun n hn => hns n (List.mem_cons_of_mem _ hn)),
      destination_join_name (hns name List.mem_cons_self), List.append_assoc]
    rfl

/-- Names behind a path are spelled behind what the path spells. -/
theorem settled_foldl_join (hns : ∀ n ∈ ns, IsName n) (hbase : isAbsolute base = false) :
    settled (ns.foldl join base) = settled base ++ ns := by
  have hsettled : ∀ path, isAbsolute path = false →
      settled path = ({} : FileSystem).destination path := by
    intro path hpath
    unfold settled destination start
    rw [hpath]
    rfl
  rw [hsettled _ (isAbsolute_foldl_join hns hbase), destination_foldl_join hns, ← hsettled _ hbase]

/-- What is behind a path is followed from the place that the path spells. -/
theorem walk_of_locate_join (hrest : isAbsolute rest = false)
    (h : fs.locate (join base rest) = .ok ms) :
    fs.walk (fs.destination base) (pieces rest) = .ok ms := by
  rw [locate_of_ne_nil (locate_spec h).1] at h
  -- Nothing in front leaves the path alone; else its pieces come behind those of the base.
  by_cases hbase : base = []
  · subst hbase
    rw [join_nil_left] at h
    have hstart : fs.start rest = fs.destination [] := by
      unfold start
      rw [hrest]
      rfl
    rwa [hstart] at h
  · obtain ⟨front, hjoin, hfront⟩ := exists_pieces_join hrest hbase
    rw [hjoin, start_join hrest hbase, walk_append, bind_eq_ok_iff] at h
    obtain ⟨names, hnames, hwalk⟩ := h
    have hreached : fs.destination base = names := by
      unfold destination
      rw [← eq_of_walk hnames]
      rcases hfront with hfront | hfront
      · rw [hfront]
      · rw [hfront, List.foldl_append, List.foldl_cons, turn_nil, List.foldl_nil]
    rwa [hreached]

/-- Names that are passed below a directory are names of its entries, also those that are undone. -/
theorem named_of_walk {P : RawPath → Prop} {passed : List RawPath}
    (hplace : fs.root.follow names = some node) (hnamed : node.Named P)
    (hstays : staysBelow passed ps = true) (hwalk : fs.walk (names ++ passed) ps = .ok ms) :
    ∀ p ∈ ps, isEntryName p = true → P p := by
  induction ps generalizing passed with
  | nil => exact nofun
  | cons piece ps ih =>
    obtain ⟨hpiece, hrest⟩ := staysBelow_cons_iff.1 hstays
    rw [walk_cons, bind_eq_ok_iff] at hwalk
    obtain ⟨next, hstep, hmore⟩ := hwalk
    obtain ⟨-, -, -, -, hturn, below, hbelow⟩ := step_eq_ok_iff.1 hstep
    rw [turn_append hpiece] at hturn
    subst hturn
    refine List.forall_mem_cons.2 ⟨fun hname => ?_, ih hrest hmore⟩
    rw [turn_of_isEntryName hname, follow_append_of_follow hplace] at hbelow
    exact (hnamed.of_follow hbelow).1 piece (by simp)

/-- A path that leads somewhere below a directory without names that hold a backslash holds none. -/
theorem backslash_not_mem_of_locate {P : RawPath → Prop} (hP : ∀ n, P n → IsPlainName n)
    (hnamed : ∀ node, fs.root.follow (fs.destination base) = some node → node.Named P)
    (hrest : isAbsolute rest = false) (hinside : StaysInside rest)
    (h : fs.locate (join base rest) = .ok ms) : backslash ∉ rest := by
  have hwalk := walk_of_locate_join hrest h
  -- The pieces of a path are never none, so the walk takes a step from the base: it is a directory.
  obtain ⟨node, hplace⟩ : ∃ node, fs.root.follow (fs.destination base) = some node := by
    obtain ⟨piece, more, hpieces⟩ := List.exists_cons_of_ne_nil (pieces_ne_nil rest)
    rw [hpieces, walk_cons, bind_eq_ok_iff] at hwalk
    obtain ⟨next, hstep, -⟩ := hwalk
    obtain ⟨_, _, hdirectory, -⟩ := step_eq_ok_iff.1 hstep
    exact ⟨_, hdirectory⟩
  rw [← List.append_nil (fs.destination base)] at hwalk
  have hpassed := named_of_walk hplace (hnamed node hplace) hinside hwalk
  intro hback
  rw [← joinWith_pieces rest] at hback
  rcases Text.mem_joinWith hback with hback | ⟨p, hp, hback⟩
  · cases hback
  · by_cases hname : isEntryName p = true
    · exact (hP p (hpassed p hp hname)).no_backslash hback
    · -- What is no name is empty or made of dots.
      rw [isEntryName_iff] at hname
      have hdots : p = [] ∨ p = [dot] ∨ p = [dot, dot] := by tauto
      rcases hdots with rfl | rfl | rfl <;> revert hback <;> decide

end FileSystem
end ApiCatalog
