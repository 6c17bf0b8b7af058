import ApiCatalog.Proofs.FileSystem

/-!
# What changes of files leave

A file system is looked at through the bytes that lie under names (`bytesAt?`). A change in a slot
shows under the name of the slot alone (`bytesAt?_change`), so writing a file shows under the names
that its path spells (`write_spec`), removing one does too, and making directories does not show at
all. `SameBut places` puts this together over many changes.

Every tree that is built by such changes has entries with names, each its own
(`named_ofList`).
-/

namespace ApiCatalog.FileSystem

open FilePath FileTree

variable {fs fs' fs'' : FileSystem} {path : RawPath} {slot : Slot} {name : RawPath}
  {names more : List RawPath} {bytes : List UInt8} {f : Entries → Entries}
  {places places' : List (List RawPath)}

/-- The bytes of a file; none for a directory. -/
def fileBytes? : FileTree → Option (List UInt8)
  | .file _ bytes => some bytes
  | .directory .. => none

/-- The bytes of the file under names, if a file lies there. -/
def bytesAt? (fs : FileSystem) (names : List RawPath) : Option (List UInt8) :=
  (fs.root.follow names).bind fileBytes?

/-! ## Slots -/

/-- The directory of the slot is there. -/
def Slot.IsIn (slot : Slot) (fs : FileSystem) : Prop :=
  fs.root.follow slot.place = some (.directory slot.access slot.entries)

/-- Only empty pieces are cut off at the end of a path. -/
theorem exists_trimmedPieces (path : RawPath) :
    ∃ rest, pieces path = trimmedPieces path ++ rest ∧ ∀ piece ∈ rest, piece = [] := by
  refine ⟨((pieces path).reverse.takeWhile (·.isEmpty)).reverse, ?_, fun piece hpiece => ?_⟩
  · rw [trimmedPieces, ← List.reverse_append, List.takeWhile_append_dropWhile, List.reverse_reverse]
  · exact List.isEmpty_iff.1 (List.mem_takeWhile_imp (List.mem_reverse.1 hpiece))

/-- So cutting them off makes no difference in where the path leads. -/
theorem foldl_turn_trimmedPieces (path : RawPath) (names : List RawPath) :
    (trimmedPieces path).foldl turn names = (pieces path).foldl turn names := by
  have hstays : ∀ (rest : List RawPath) (done : List RawPath), (∀ piece ∈ rest, piece = []) →
      rest.foldl turn done = done := by
    intro rest done hempty
    induction rest with
    | nil => rfl
    | cons piece rest ih =>
      obtain ⟨rfl, hmore⟩ := List.forall_mem_cons.1 hempty
      rw [List.foldl_cons, turn_nil, ih hmore]
  obtain ⟨rest, hrest, hempty⟩ := exists_trimmedPieces path
  rw [hrest, List.foldl_append, hstays rest _ hempty]

/-- A slot is in a directory that may be entered, where all of its path but the last name leads. -/
theorem slot_spec (h : fs.slot path = .ok slot) :
    slot.IsIn fs ∧ slot.access.enter = none ∧ slot.name = (trimmedPieces path).getLast?.getD [] ∧
      fs.walk (fs.start path) (trimmedPieces path).dropLast = .ok slot.place ∧ path ≠ [] := by
  unfold FileSystem.slot at h
  split at h
  · cases h
  next hpath =>
  obtain ⟨place, hwalk, h⟩ := bind_eq_ok_iff.1 h
  cases hfollow : fs.root.follow place with
  | none =>
    simp only [hfollow] at h
    cases h
  | some node =>
    simp only [hfollow] at h
    cases node with
    | file access bytes => cases h
    | directory access entries =>
      obtain ⟨⟨⟩, henter, h⟩ := bind_eq_ok_iff.1 h
      cases h
      exact ⟨hfollow, allow_eq_ok_iff.1 henter, rfl, hwalk, hpath⟩

/-- The slot of a path that stands for a name is where the path spells. -/
theorem destination_of_slot (h : fs.slot path = .ok slot) (hname : isEntryName slot.name = true) :
    fs.destination path = slot.place ++ [slot.name] ∧ IsName slot.name := by
  obtain ⟨-, -, hlast, hwalk, -⟩ := slot_spec h
  have hplace := eq_of_walk hwalk
  have hne : trimmedPieces path ≠ [] := by
    intro hnil
    rw [hlast, hnil] at hname
    exact absurd hname (by decide)
  obtain ⟨init, last, htrimmed⟩ := (List.eq_nil_or_concat' _).resolve_left hne
  rw [htrimmed, List.getLast?_concat, Option.getD_some] at hlast
  rw [htrimmed, List.dropLast_concat] at hplace
  constructor
  · unfold destination
    rw [← foldl_turn_trimmedPieces, htrimmed, List.foldl_append, hplace, ← hlast,
      List.foldl_cons, turn_of_isEntryName hname, List.foldl_nil]
  · obtain ⟨rest, hrest, -⟩ := exists_trimmedPieces path
    have hmem : slot.name ∈ pieces path := by
      rw [hrest, htrimmed, hlast]
      simp
    exact isName_iff.2 ⟨hname, slash_not_mem_pieces hmem⟩

/-! ## A change in a slot -/

/-- Above and beside the directory of a slot things are as they were, but for the entries of
directories. -/
theorem follow_change_cases (hslot : slot.IsIn fs) (f : Entries → Entries) (names : List RawPath) :
    (∃ n more, names = slot.place ++ n :: more) ∨
      (fs.change slot f).root.follow names = fs.root.follow names ∨
      ∃ access entries entries', fs.root.follow names = some (.directory access entries) ∧
        (fs.change slot f).root.follow names = some (.directory access entries') := by
  unfold change
  dsimp only
  -- Three places: below the slot's directory, on the way to it, and beside both.
  by_cases hbelow : slot.place <+: names
  · obtain ⟨rest, rfl⟩ := hbelow
    cases rest with
    | nil =>
      rw [List.append_nil]
      exact .inr (.inr ⟨_, _, _, hslot, follow_changeAt_self hslot⟩)
    | cons n more => exact .inl ⟨n, more, rfl⟩
  by_cases habove : names <+: slot.place
  · obtain ⟨rest, hrest⟩ := habove
    have hne : rest ≠ [] := by
      rintro rfl
      rw [List.append_nil] at hrest
      exact hbelow (hrest ▸ List.prefix_rfl)
    -- A directory on the way has another child afterwards but stays a directory of the same access.
    unfold Slot.IsIn at hslot
    rw [← hrest] at hslot ⊢
    obtain ⟨access, entries, hfollow⟩ := exists_directory_of_follow hne hslot
    obtain ⟨entries', hfollow'⟩ := follow_changeAt_of_above (f := f) hne hfollow
    exact .inr (.inr ⟨access, entries, entries', hfollow, hfollow'⟩)
  · exact .inr (.inl (follow_changeAt_of_beside hbelow habove))

/-- Below the directory of a slot, its entries say where names lead. -/
theorem follow_append_cons (hslot : slot.IsIn fs) (n : RawPath) (more : List RawPath) :
    fs.root.follow (slot.place ++ n :: more) = (lookup? n slot.entries).bind (follow more) := by
  rw [follow_append_of_follow hslot, follow_directory]

/-- After a change, the changed ones do. -/
theorem follow_change_append_cons (hslot : slot.IsIn fs) (n : RawPath) (more : List RawPath) :
    (fs.change slot f).root.follow (slot.place ++ n :: more) =
      (lookup? n (f slot.entries)).bind (follow more) := by
  unfold change
  dsimp only
  rw [follow_append_of_follow (follow_changeAt_self hslot), follow_directory]

/-- A node with nothing below it. -/
def IsLeaf (node? : Option FileTree) : Prop :=
  ∀ name more, (node?.bind (follow (name :: more))).bind fileBytes? = none

/-- All files are as they were, save under some names; the disk and the place of work are. -/
structure SameBut (places : List (List RawPath)) (fs fs' : FileSystem) : Prop where
  here : fs'.here = fs.here
  disk : fs'.disk = fs.disk
  bytes : ∀ names, names ∉ places → fs'.bytesAt? names = fs.bytesAt? names

/-- What is not changed is as it was. -/
theorem SameBut.refl (places : List (List RawPath)) (fs : FileSystem) : SameBut places fs fs :=
  ⟨rfl, rfl, fun _ _ => rfl⟩

/-- Changes one after the other show where one of them does. -/
theorem SameBut.trans (h : SameBut places fs fs') (h' : SameBut places fs' fs'') :
    SameBut places fs fs'' :=
  ⟨h'.here.trans h.here, h'.disk.trans h.disk,
    fun names hnames => (h'.bytes names hnames).trans (h.bytes names hnames)⟩

/-- More names may be excepted. -/
theorem SameBut.mono (h : SameBut places fs fs') (hsubset : places ⊆ places') :
    SameBut places' fs fs' :=
  ⟨h.here, h.disk, fun names hnames => h.bytes names fun hmem => hnames (hsubset hmem)⟩

/-- Paths spell the same names then. -/
theorem SameBut.destination (h : SameBut places fs fs') (path : RawPath) :
    fs'.destination path = fs.destination path := by
  unfold FileSystem.destination start
  rw [h.here]

/-- Nothing is cut off from a path that ends in a name. -/
theorem trimmedPieces_of_endsInName (h : endsInName path = true) :
    trimmedPieces path = pieces path := by
  obtain ⟨rest, hrest, hempty⟩ := exists_trimmedPieces path
  unfold endsInName at h
  rcases List.eq_nil_or_concat' rest with rfl | ⟨front, last, rfl⟩
  · rw [hrest, List.append_nil]
  · obtain rfl := hempty last (by simp)
    rw [hrest, ← List.append_assoc, List.getLast?_concat] at h
    exact absurd h (by decide)

/-- Writing puts a file into the slot of the path, where a file is or nothing. -/
theorem exists_slot_of_write (h : fs.write path bytes = .ok fs') :
    ∃ slot access, fs.slot path = .ok slot ∧ endsInName path = true ∧
      (slot.node? = none ∧ access = {} ∨ ∃ old, slot.node? = some (.file access old)) ∧
      fs' = fs.change slot (setEntry slot.name (.file access bytes)) := by
  unfold write at h
  obtain ⟨slot, hslot, h⟩ := bind_eq_ok_iff.1 h
  -- A path that ends in a name can only be written where nothing is or a file is.
  cases hends : endsInName path with
  | false =>
    rw [hends] at h
    cases h
  | true =>
    rw [hends] at h
    cases hnode : slot.node? with
    | none =>
      simp only [hnode] at h
      obtain ⟨⟨⟩, -, h⟩ := bind_eq_ok_iff.1 h
      exact ⟨slot, {}, hslot, rfl, .inl ⟨hnode, rfl⟩, (Except.ok.inj h).symm⟩
    | some node =>
      simp only [hnode] at h
      cases node with
      | directory access entries => cases h
      | file access old =>
        obtain ⟨⟨⟩, -, h⟩ := bind_eq_ok_iff.1 h
        exact ⟨slot, access, hslot, rfl, .inr ⟨old, hnode⟩, (Except.ok.inj h).symm⟩

/-- The slot that a path stands for that ends in a name. -/
theorem destination_of_endsInName (hslot : fs.slot path = .ok slot) (hends : endsInName path = true) :
    fs.destination path = slot.place ++ [slot.name] ∧ IsName slot.name := by
  refine destination_of_slot hslot ?_
  rw [(slot_spec hslot).2.2.1, trimmedPieces_of_endsInName hends]
  exact hends

/-- Making a directory puts an empty one into the slot of the path, where nothing is. -/
theorem exists_slot_of_makeDirectory (h : fs.makeDirectory path = .ok fs') :
    ∃ slot, fs.slot path = .ok slot ∧ isEntryName slot.name = true ∧ slot.node? = none ∧
      fs' = fs.change slot (setEntry slot.name .empty) := by
  unfold makeDirectory at h
  obtain ⟨slot, hslot, h⟩ := bind_eq_ok_iff.1 h
  split at h
  · cases h
  · next hfree =>
    obtain ⟨⟨⟩, -, h⟩ := bind_eq_ok_iff.1 h
    cases h
    simp only [Bool.or_eq_true, Bool.not_eq_true', not_or, Bool.not_eq_false,
      Option.not_isSome_iff_eq_none] at hfree
    exact ⟨slot, hslot, hfree.1, hfree.2, rfl⟩

/-- Where something lies, something still lies when a file is written, and a directory stays a
directory of the same access. -/
theorem exists_follow_of_write {node : FileTree} (h : fs.write path bytes = .ok fs')
    (hfollow : fs.root.follow names = some node) :
    ∃ node', fs'.root.follow names = some node' ∧ ∀ access entries,
      node = .directory access entries → ∃ entries', node' = .directory access entries' := by
  obtain ⟨slot, access, hslot, -, hnode, rfl⟩ := exists_slot_of_write h
  have hin := (slot_spec hslot).1
  obtain ⟨n, more, rfl⟩ | hsame | ⟨access', entries, entries', hdirectory, hdirectory'⟩ :=
    follow_change_cases hin (setEntry slot.name (.file access bytes)) names
  · rw [follow_append_cons hin] at hfollow
    rw [follow_change_append_cons hin, lookup?_setEntry]
    split
    · next hn =>
      -- Under the name of the slot lies a file at most, so nothing below it.
      subst hn
      obtain ⟨child, hchild, hmore⟩ := Option.bind_eq_some_iff.1 hfollow
      rcases hnode with ⟨hnode, -⟩ | ⟨old, hnode⟩
      · cases hchild.symm.trans hnode
      · cases hchild.symm.trans hnode
        obtain ⟨rfl, rfl⟩ := follow_file hmore
        exact ⟨_, follow_nil _, nofun⟩
    · exact ⟨node, hfollow, fun _ entries' heq => ⟨entries', heq⟩⟩
  · exact ⟨node, hsame.trans hfollow, fun _ entries' heq => ⟨entries', heq⟩⟩
  · cases hfollow.symm.trans hdirectory
    refine ⟨_, hdirectory', fun _ _ heq => ?_⟩
    cases heq
    exact ⟨_, rfl⟩

/-- What could be followed can be followed when a file is written. -/
theorem walk_of_write {ps ms : List RawPath} (h : fs.write path bytes = .ok fs')
    (hwalk : fs.walk names ps = .ok ms) : fs'.walk names ps = .ok ms := by
  induction ps generalizing names with
  | nil => exact hwalk
  | cons piece ps ih =>
    rw [walk_cons, bind_eq_ok_iff] at hwalk ⊢
    obtain ⟨next, hstep, hrest⟩ := hwalk
    obtain ⟨access, entries, hdirectory, henter, hturn, node, hnode⟩ := step_eq_ok_iff.1 hstep
    obtain ⟨node', hdirectory', hstays⟩ := exists_follow_of_write h hdirectory
    obtain ⟨entries', rfl⟩ := hstays access entries rfl
    obtain ⟨node', hnode', -⟩ := exists_follow_of_write h hnode
    exact ⟨next, step_eq_ok_iff.2 ⟨access, entries', hdirectory', henter, hturn, node', hnode'⟩,
      ih hrest⟩

/-- What was written can be read, unless a file was there that may not be read. -/
theorem read_of_write (h : fs.write path bytes = .ok fs')
    (hreadable : ∀ access old, fs.root.follow (fs.destination path) = some (.file access old) →
      access.read = none) :
    fs'.read path = .ok bytes := by
  obtain ⟨slot, access, hslot, hends, hnode, rfl⟩ := exists_slot_of_write h
  obtain ⟨hdestination, hname⟩ := destination_of_endsInName hslot hends
  obtain ⟨hin, henter, hlast, hwalk, hpath⟩ := slot_spec hslot
  -- A new file can be read by anybody; an old one keeps the access it had.
  have hread : access.read = none := by
    rcases hnode with ⟨-, rfl⟩ | ⟨old, hnode⟩
    · rfl
    · refine hreadable access old ?_
      rw [hdestination, follow_append_cons hin]
      unfold Slot.node? at hnode
      rw [hnode]
      rfl
  have hpieces : pieces path = (trimmedPieces path).dropLast ++ [slot.name] := by
    have hne : pieces path ≠ [] := pieces_ne_nil path
    rw [trimmedPieces_of_endsInName hends] at hlast ⊢
    rw [hlast, List.getLast?_eq_some_getLast hne, Option.getD_some, List.dropLast_concat_getLast]
  have hfollow : (fs.change slot (setEntry slot.name (.file access bytes))).root.follow
      (slot.place ++ [slot.name]) = some (.file access bytes) := by
    rw [follow_change_append_cons hin, lookup?_setEntry, if_pos rfl]
    rfl
  -- The walk to the directory is the same as before the write, and its last step finds the new
  -- file.
  have hlocate : (fs.change slot (setEntry slot.name (.file access bytes))).locate path =
      .ok (slot.place ++ [slot.name]) := by
    rw [locate_of_ne_nil hpath, hpieces, walk_append]
    refine bind_eq_ok_iff.2 ⟨slot.place, walk_of_write h hwalk, ?_⟩
    rw [walk_cons]
    exact bind_eq_ok_iff.2 ⟨_, step_eq_ok_iff.2 ⟨slot.access, _, follow_changeAt_self hin,
      .inr henter, turn_of_isEntryName (isName_iff.1 hname).1 _, _, hfollow⟩, rfl⟩
  unfold read
  refine bind_eq_ok_iff.2 ⟨_, node_eq_ok_iff.2 ⟨_, hlocate, hfollow⟩, ?_⟩
  dsimp only
  rw [hread]
  rfl

/-! ## Names of entries -/

/-- A change that keeps entries in order keeps the tree in order. -/
theorem named_change (h : fs.root.Named IsName)
    (hf : ∀ entries, GoodEntries IsName (Named IsName) entries →
      GoodEntries IsName (Named IsName) (f entries)) :
    (fs.change slot f).root.Named IsName := h.changeAt hf

/-- A file is written under a name, since its path ends in one. -/
theorem named_write (h : fs.root.Named IsName) (hwrite : fs.write path bytes = .ok fs') :
    fs'.root.Named IsName := by
  obtain ⟨slot, access, hslot, hends, -, rfl⟩ := exists_slot_of_write hwrite
  exact named_change h fun _ hentries =>
    hentries.setEntry (destination_of_endsInName hslot hends).2 (.file access bytes)

theorem named_empty : FileTree.empty.Named IsName := .directory {} List.nodup_nil nofun nofun

/-- A directory is made under a name. -/
theorem named_ensureDirectory (h : fs.root.Named IsName) (path : RawPath) :
    (fs.ensureDirectory path).2.root.Named IsName := by
  unfold ensureDirectory
  cases hmake : fs.makeDirectory path with
  | error problem => exact h
  | ok fs' =>
    obtain ⟨slot, hslot, hname, -, rfl⟩ := exists_slot_of_makeDirectory hmake
    exact named_change h fun _ hentries =>
      hentries.setEntry (destination_of_slot hslot hname).2 named_empty

theorem named_makeFrom (components : List RawPath) (h : fs.root.Named IsName) :
    (makeFrom components fs).2.root.Named IsName := by
  induction components generalizing fs with
  | nil => exact h
  | cons last front ih =>
    unfold makeFrom
    dsimp only
    have hfirst := named_ensureDirectory h (ofComponents (last :: front).reverse)
    split
    · next made hmade =>
      rw [hmade] at hfirst
      have hfront := ih hfirst
      split
      · next made' hmade' =>
        rw [hmade'] at hfront
        exact named_ensureDirectory hfront _
      · exact hfront
    · exact hfirst

/-- However a file system is filled, its entries have names, each its own. -/
theorem named_addAll (h : fs.root.Named IsName) (contents : List (RawPath × FileTree)) :
    (fs.addAll contents).root.Named IsName := by
  unfold addAll
  induction contents generalizing fs with
  | nil => exact h
  | cons c contents ih =>
    obtain ⟨path, content⟩ := c
    rw [List.foldl_cons]
    refine ih ?_
    cases content with
    | directory access entries => exact named_makeFrom _ h
    | file access bytes =>
      have hmade : (fs.makeDirectories (parent path)).2.root.Named IsName := named_makeFrom _ h
      dsimp only
      cases hwrite : (fs.makeDirectories (parent path)).2.write path bytes with
      | error problem => exact hmade
      | ok fs' => exact named_write hmade hwrite

/-- A list of contents makes no exception. -/
theorem named_ofList (contents : List (String × FileTree)) :
    (ofList contents).root.Named IsName := named_addAll named_empty _

end ApiCatalog.FileSystem
