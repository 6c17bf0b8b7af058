import ApiCatalog.FileTree
import Mathlib.Data.List.Nodup

/-!
# Trees of files

A tree is known by the nodes that names lead down to (`follow`). A change of the entries of one
directory leaves the directories on the way to it directories (`follow_changeAt_of_above`) and
everything beside that way as it is (`follow_changeAt_of_beside`).

In a tree that is `Named` the entries of a directory have different names, all of them as `P` has
it. A node of such a tree is found by names with `P` (`Named.of_follow`), and entries that are
changed by names with `P` leave the tree so (`Named.changeAt`).
-/

namespace ApiCatalog.FileTree

variable {tree node : FileTree} {name : RawPath} {names ns : List RawPath} {entries : Entries}
  {access : Access} {P : RawPath → Prop}

/-! ## Entries -/

/-- Entries with different names, all of them with `P`, each with a node that has `Q`. -/
structure GoodEntries (P : RawPath → Prop) (Q : FileTree → Prop) (entries : Entries) : Prop where
  unique : (entries.map Prod.fst).Nodup
  names : ∀ e ∈ entries, P e.1
  nodes : ∀ e ∈ entries, Q e.2

/-- Every directory has entries with different names, all of them with `P`. -/
inductive Named (P : RawPath → Prop) : FileTree → Prop where
  | file (access : Access) (bytes : List UInt8) : Named P (.file access bytes)
  | directory (access : Access) {entries : Entries} (unique : (entries.map Prod.fst).Nodup)
      (names : ∀ e ∈ entries, P e.1) (nodes : ∀ e ∈ entries, Named P e.2) :
      Named P (.directory access entries)

/-- A directory is in order if its entries are. -/
theorem named_directory_iff :
    Named P (.directory access entries) ↔ GoodEntries P (Named P) entries := by
  constructor
  · rintro (_ | ⟨_, unique, names, nodes⟩)
    exact ⟨unique, names, nodes⟩
  · exact fun ⟨unique, names, nodes⟩ => .directory access unique names nodes

/-- Names of a kind are names of a wider kind. -/
theorem Named.mono {P' : RawPath → Prop} (h : ∀ name, P name → P' name) (htree : tree.Named P) :
    tree.Named P' := by
  induction htree with
  | file access bytes => exact .file access bytes
  | directory access unique names nodes ih =>
    exact .directory access unique (fun e he => h e.1 (names e he)) ih

/-- What is found under a name is an entry. -/
theorem mem_of_lookup? (h : lookup? name entries = some node) : (name, node) ∈ entries := by
  unfold lookup? at h
  obtain ⟨e, he, rfl⟩ := Option.map_eq_some_iff.1 h
  have hname := List.find?_some he
  rw [beq_iff_eq] at hname
  rw [← hname]
  exact List.mem_of_find?_eq_some he

/-- An entry is found under its name, if no other has it. -/
theorem lookup?_of_mem (hunique : (entries.map Prod.fst).Nodup) (h : (name, node) ∈ entries) :
    lookup? name entries = some node := by
  unfold lookup?
  induction entries with
  | nil => cases h
  | cons e entries ih =>
    rw [List.map_cons, List.nodup_cons] at hunique
    rcases List.mem_cons.1 h with rfl | h
    · simp
    · have hne : e.1 ≠ name := by
        rintro rfl
        exact hunique.1 (List.mem_map.2 ⟨_, h, rfl⟩)
      rw [List.find?_cons_of_neg (by simpa using hne)]
      exact ih hunique.2 h

theorem lookup?_cons (e : RawPath × FileTree) (entries : Entries) :
    lookup? name (e :: entries) = if e.1 = name then some e.2 else lookup? name entries := by
  unfold lookup?
  by_cases h : e.1 = name
  · rw [List.find?_cons_of_pos (by simpa using h), if_pos h]
    rfl
  · rw [List.find?_cons_of_neg (by simpa using h), if_neg h]

/-- A node is found under the name it was put under, and the other names are left alone. -/
theorem lookup?_setEntry (name n : RawPath) (node : FileTree) (entries : Entries) :
    lookup? n (setEntry name node entries) = if n = name then some node else lookup? n entries := by
  induction entries with
  | nil =>
    rw [setEntry, lookup?_cons]
    exact if_congr eq_comm rfl rfl
  | cons e entries ih =>
    rw [setEntry]
    split
    · next he =>
      rw [lookup?_cons, lookup?_cons, he]
      by_cases hn : n = name
      · rw [if_pos hn.symm, if_pos hn]
      · rw [if_neg (Ne.symm hn), if_neg hn, if_neg (Ne.symm hn)]
    · next he =>
      rw [lookup?_cons, lookup?_cons, ih]
      by_cases hn : n = name
      · subst hn
        simp [he]
      · simp [hn]

/-- Putting a node under a name brings no other entry. -/
theorem mem_setEntry {e : RawPath × FileTree} (h : e ∈ setEntry name node entries) :
    e = (name, node) ∨ e ∈ entries := by
  induction entries with
  | nil => exact .inl (List.mem_singleton.1 h)
  | cons d entries ih =>
    rw [setEntry] at h
    split at h
    · exact (List.mem_cons.1 h).imp_right (List.mem_cons_of_mem _)
    · rcases List.mem_cons.1 h with rfl | h
      · exact .inr List.mem_cons_self
      · exact (ih h).imp_right (List.mem_cons_of_mem _)

theorem nodup_setEntry (name : RawPath) (node : FileTree) (h : (entries.map Prod.fst).Nodup) :
    ((setEntry name node entries).map Prod.fst).Nodup := by
  induction entries with
  | nil => exact List.nodup_singleton _
  | cons e entries ih =>
    rw [List.map_cons, List.nodup_cons] at h
    rw [setEntry]
    split
    · next he => rwa [List.map_cons, ← he, List.nodup_cons]
    · next he =>
      rw [List.map_cons, List.nodup_cons]
      refine ⟨fun hmem => ?_, ih h.2⟩
      obtain ⟨d, hd, hname⟩ := List.mem_map.1 hmem
      rcases mem_setEntry hd with rfl | hd
      · exact he hname.symm
      · exact h.1 (List.mem_map.2 ⟨d, hd, hname⟩)

namespace GoodEntries

variable {Q : FileTree → Prop}

theorem setEntry (h : GoodEntries P Q entries) (hname : P name) (hnode : Q node) :
    GoodEntries P Q (FileTree.setEntry name node entries) where
  unique := nodup_setEntry name node h.unique
  names e he := by
    rcases mem_setEntry he with rfl | he
    · exact hname
    · exact h.names e he
  nodes e he := by
    rcases mem_setEntry he with rfl | he
    · exact hnode
    · exact h.nodes e he

theorem dropEntry (h : GoodEntries P Q entries) (name : RawPath) :
    GoodEntries P Q (FileTree.dropEntry name entries) where
  unique := (List.filter_sublist.map Prod.fst).nodup h.unique
  names e he := h.names e (List.mem_filter.1 he).1
  nodes e he := h.nodes e (List.mem_filter.1 he).1

end GoodEntries

/-! ## Nodes under names -/

@[simp] theorem follow_nil (tree : FileTree) : follow [] tree = some tree := by
  cases tree <;> rfl

/-- Names lead on from an entry of the directory. -/
theorem follow_directory (name : RawPath) (names : List RawPath) (access : Access)
    (entries : Entries) :
    follow (name :: names) (.directory access entries) =
      (lookup? name entries).bind (follow names) := rfl

/-- Names are followed one after the other. -/
theorem follow_append (tree : FileTree) (names ns : List RawPath) :
    follow (names ++ ns) tree = (follow names tree).bind (follow ns) := by
  induction names generalizing tree with
  | nil => rw [List.nil_append, follow_nil, Option.bind_some]
  | cons n names ih =>
    cases tree with
    | file access bytes => rfl
    | directory access entries =>
      rw [List.cons_append, follow_directory, follow_directory]
      cases lookup? n entries with
      | none => rfl
      | some node => exact ih node

theorem follow_append_of_follow (h : follow names tree = some node) (ns : List RawPath) :
    follow (names ++ ns) tree = follow ns node := by
  rw [follow_append, h, Option.bind_some]

/-- Nothing lies below a file. -/
theorem follow_file {bytes : List UInt8} (h : follow ns (.file access bytes) = some node) :
    ns = [] ∧ node = .file access bytes := by
  cases ns with
  | nil => exact ⟨rfl, (Option.some.inj h).symm⟩
  | cons n ns => cases h

/-- One name leads to an entry. -/
theorem follow_singleton (name : RawPath) (access : Access) (entries : Entries) :
    follow [name] (.directory access entries) = lookup? name entries := by
  rw [follow_directory]
  cases lookup? name entries with
  | none => rfl
  | some node => exact follow_nil node

/-- The way down to a node leads through directories. -/
theorem exists_directory_of_follow (hne : ns ≠ []) (h : follow (names ++ ns) tree = some node) :
    ∃ access entries, follow names tree = some (.directory access entries) := by
  rw [follow_append] at h
  obtain ⟨middle, hmiddle, hrest⟩ := Option.bind_eq_some_iff.1 h
  cases middle with
  | file access bytes => exact absurd (follow_file hrest).1 hne
  | directory access entries => exact ⟨access, entries, hmiddle⟩

/-- A node of a named tree is named, and so are all names that lead to it. -/
theorem Named.of_follow (htree : tree.Named P) (h : tree.follow names = some node) :
    (∀ n ∈ names, P n) ∧ node.Named P := by
  induction names generalizing tree with
  | nil =>
    rw [follow_nil] at h
    cases h
    exact ⟨nofun, htree⟩
  | cons name names ih =>
    cases htree with
    | file access bytes => cases h
    | directory access unique hnames nodes =>
      obtain ⟨child, hchild, hrest⟩ := Option.bind_eq_some_iff.1 h
      have hmem := mem_of_lookup? hchild
      obtain ⟨hbelow, hnode⟩ := ih (nodes _ hmem) hrest
      exact ⟨List.forall_mem_cons.2 ⟨hnames _ hmem, hbelow⟩, hnode⟩

/-! ## A change in one directory -/

variable {f : Entries → Entries}

/-- What is not on the way to the directory, nor below it, is as it was. -/
theorem follow_changeAt_of_beside (h : ¬names <+: ns) (h' : ¬ns <+: names) :
    follow ns (changeAt f names tree) = follow ns tree := by
  -- Along the way to the changed directory, as long as both ways agree.
  induction names generalizing tree ns with
  | nil => exact absurd List.nil_prefix h
  | cons name names ih =>
    cases tree with
    | file access bytes => rfl
    | directory access entries =>
      cases ns with
      | nil => exact absurd List.nil_prefix h'
      | cons n ns =>
        rw [changeAt]
        cases hlookup : lookup? name entries with
        | none => rfl
        | some node =>
          rw [follow_directory, follow_directory, lookup?_setEntry]
          split
          -- Here both ways take the same entry, and part further on.
          · next hn =>
            subst hn
            rw [hlookup, Option.bind_some, Option.bind_some]
            exact ih (fun hp => h (List.cons_prefix_cons.2 ⟨rfl, hp⟩))
              fun hp => h' (List.cons_prefix_cons.2 ⟨rfl, hp⟩)
          · rfl

/-- The directory has the other entries then. -/
theorem follow_changeAt_self (h : follow names tree = some (.directory access entries)) :
    follow names (changeAt f names tree) = some (.directory access (f entries)) := by
  induction names generalizing tree with
  | nil =>
    rw [follow_nil] at h
    cases h
    rfl
  | cons name names ih =>
    cases tree with
    | file access bytes => cases h
    | directory access entries =>
      obtain ⟨node, hnode, hrest⟩ := Option.bind_eq_some_iff.1 h
      rw [changeAt, hnode, follow_directory, lookup?_setEntry, if_pos rfl, Option.bind_some]
      exact ih hrest

/-- A directory on the way stays one, with its access. -/
theorem follow_changeAt_of_above {more : List RawPath} (hmore : more ≠ [])
    (h : follow ns tree = some (.directory access entries)) :
    ∃ entries', follow ns (changeAt f (ns ++ more) tree) = some (.directory access entries') := by
  induction ns generalizing tree with
  | nil =>
    rw [follow_nil] at h
    cases h
    obtain ⟨name, more, rfl⟩ := List.exists_cons_of_ne_nil hmore
    rw [List.nil_append, changeAt]
    cases lookup? name entries with
    | none => exact ⟨_, rfl⟩
    | some node => exact ⟨_, rfl⟩
  | cons n ns ih =>
    cases tree with
    | file access bytes => cases h
    | directory access entries =>
      obtain ⟨node, hnode, hrest⟩ := Option.bind_eq_some_iff.1 h
      rw [List.cons_append, changeAt, hnode, follow_directory, lookup?_setEntry, if_pos rfl,
        Option.bind_some]
      exact ih hrest

/-- A change of the entries of a directory that keeps them named keeps the tree named. -/
theorem Named.changeAt (htree : tree.Named P)
    (hf : ∀ entries, GoodEntries P (Named P) entries → GoodEntries P (Named P) (f entries)) :
    (FileTree.changeAt f names tree).Named P := by
  induction names generalizing tree with
  | nil =>
    cases tree with
    | file access bytes => exact htree
    | directory access entries =>
      exact named_directory_iff.2 (hf entries (named_directory_iff.1 htree))
  | cons name names ih =>
    cases tree with
    | file access bytes => exact htree
    | directory access entries =>
      rw [FileTree.changeAt]
      cases hlookup : lookup? name entries with
      | none => exact htree
      | some node =>
        have hentries := named_directory_iff.1 htree
        have hmem := mem_of_lookup? hlookup
        exact named_directory_iff.2 (hentries.setEntry (hentries.names _ hmem)
          (ih (hentries.nodes _ hmem)))

end ApiCatalog.FileTree
