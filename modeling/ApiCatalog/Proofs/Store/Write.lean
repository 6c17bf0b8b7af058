import ApiCatalog.Proofs.Last
import ApiCatalog.Proofs.Store.Table

/-!
# Writing rows under keys

Elements, deprecations and arguments are all written in one way: the row of a key is renewed if
there is one, and made otherwise. A `Write` says both. Its laws make writing twice the same as
writing once, and leave the rows of all other keys alone.

`Write.Settled` is the state in which a write has nothing left to do. A write settles itself, a
write under another key keeps it settled, and so the last write under each key decides how the
table ends (`settled_writeAll`); writing everything a second time then changes nothing
(`writeAll_writeAll`).
-/

namespace ApiCatalog

/-- How the row of a key is written: how a row that is there is renewed, and the row that is made
if there is none. -/
structure Write {α κ : Type} (key : α → κ) where
  target : κ
  renew : α → α
  fresh : α
  key_renew : ∀ row, key row = target → key (renew row) = target
  key_fresh : key fresh = target
  renew_renew : ∀ row, renew (renew row) = renew row
  renew_fresh : renew fresh = fresh

variable {α κ : Type} [BEq κ] {key : α → κ} {c : κ}

namespace Table

/-- The id of the record of a key, or the one that a new row would get. -/
def idAt (t : Table α) (key : α → κ) (c : κ) : Int :=
  match t.at? key c with
  | some r => r.id
  | none => t.nextId

/-- The table with a row written. -/
def write (t : Table α) (w : Write key) : Table α :=
  match t.at? key w.target with
  | some r => t.update r.id w.renew
  | none => t.add w.fresh

/-- The table with rows written, one after the other. -/
def writeAll (t : Table α) (ws : List (Write key)) : Table α := ws.foldl write t

theorem idAt_of_at? {t : Table α} {r : Record α} (h : t.at? key c = some r) :
    t.idAt key c = r.id := by
  simp [idAt, h]

theorem write_of_at? {t : Table α} {w : Write key} {r : Record α}
    (h : t.at? key w.target = some r) : t.write w = t.update r.id w.renew := by
  simp [write, h]

theorem write_of_at?_none {t : Table α} {w : Write key} (h : t.at? key w.target = none) :
    t.write w = t.add w.fresh := by
  simp [write, h]

variable [LawfulBEq κ]

/-! ## One write -/

/-- Renewing the row of a key changes the key of no row. -/
theorem key_update {t : Table α} {w : Write key} {r : Record α} (h : t.at? key w.target = some r) :
    ∀ q ∈ t.records, key (if q.id = r.id then w.renew q.row else q.row) = key q.row := by
  intro q hq
  split
  · next hid =>
    have hkey : key q.row = w.target := eq_of_id_eq hq (mem_of_at? h) hid ▸ key_of_at? h
    rw [hkey, w.key_renew _ hkey]
  · rfl

/-- No row of another key has the id under which a write leaves its row. -/
theorem idAt_ne {t : Table α} {r : Record α} (hr : r ∈ t.records) (h : key r.row ≠ c) :
    t.idAt key c ≠ r.id := by
  unfold idAt
  split
  · next q hq =>
    intro hid
    have : q = r := eq_of_id_eq (mem_of_at? hq) hr hid
    exact h (this ▸ key_of_at? hq)
  · exact (id_ne_nextId hr).symm

/-- A row behind a write is the one written or was there before. -/
theorem mem_write {t : Table α} {w : Write key} {r : Record α} (h : r ∈ (t.write w).records) :
    r.id = t.idAt key w.target ∧ key r.row = w.target ∨
      r.id ≠ t.idAt key w.target ∧ r ∈ t.records := by
  unfold write at h
  unfold idAt
  cases hat : t.at? key w.target with
  | none =>
    rw [hat] at h
    rcases mem_add.1 h with h | rfl
    · exact .inr ⟨id_ne_nextId h, h⟩
    · exact .inl ⟨rfl, w.key_fresh⟩
  | some q =>
    rw [hat] at h
    obtain ⟨r, hr, rfl⟩ := mem_mapRows.1 h
    -- Only the row with the id of the key is renewed.
    by_cases hid : r.id = q.id
    · refine .inl ⟨hid, ?_⟩
      have hkey : key r.row = w.target := eq_of_id_eq hr (mem_of_at? hat) hid ▸ key_of_at? hat
      simp only [hid, ↓reduceIte]
      exact w.key_renew _ hkey
    · refine .inr ⟨hid, ?_⟩
      simpa [hid] using hr

omit [LawfulBEq κ] in
/-- A write keeps all ids. -/
theorem has_write {t : Table α} {w : Write key} {id : Int} (h : t.has id = true) :
    (t.write w).has id = true := by
  unfold write
  split
  · exact has_mapRows.trans h
  · exact has_add h

theorem at?_write_of_ne {t : Table α} {w : Write key} (h : w.target ≠ c) :
    (t.write w).at? key c = t.at? key c := by
  unfold write
  split
  · next r hr =>
    rw [update, at?_mapRows (key_update hr)]
    cases hq : t.at? key c with
    | none => rfl
    | some q =>
      have hid : q.id ≠ r.id := by
        intro hid
        have : q = r := eq_of_id_eq (mem_of_at? hq) (mem_of_at? hr) hid
        exact h ((key_of_at? hr).symm.trans (this ▸ key_of_at? hq))
      simp [hid]
  · exact at?_add_of_ne (by rw [w.key_fresh]; exact h)

theorem at?_write_self {t : Table α} {w : Write key} :
    ∃ row, (t.write w).at? key w.target = some ⟨t.idAt key w.target, row⟩ ∧ w.renew row = row := by
  unfold write idAt
  cases hat : t.at? key w.target with
  | none =>
    refine ⟨w.fresh, ?_, w.renew_fresh⟩
    rw [← w.key_fresh] at hat ⊢
    exact at?_add_self hat
  | some r =>
    refine ⟨w.renew r.row, ?_, w.renew_renew _⟩
    dsimp only
    rw [update, at?_mapRows (key_update hat), hat]
    simp

/-- A record stays the one of its key, whatever is written. -/
theorem idAt_write {t : Table α} {w : Write key} {r : Record α} (h : t.at? key c = some r) :
    ∃ row, (t.write w).at? key c = some ⟨r.id, row⟩ := by
  by_cases hc : w.target = c
  · subst hc
    obtain ⟨row, hrow, -⟩ := at?_write_self (t := t) (w := w)
    exact ⟨row, by rw [hrow, idAt_of_at? h]⟩
  · exact ⟨r.row, by rw [at?_write_of_ne hc, h]⟩

theorem HasUniqueKeys.write {t : Table α} (h : HasUniqueKeys key t) (w : Write key) :
    HasUniqueKeys key (t.write w) := by
  unfold Table.write
  split
  · next hr => exact h.mapRows (key_update hr)
  · next hnone =>
    refine h.add fun r hr => ?_
    rw [w.key_fresh]
    exact at?_eq_none_iff.1 hnone r hr

theorem HasUniqueKeys.writeAll {t : Table α} (h : HasUniqueKeys key t) (ws : List (Write key)) :
    HasUniqueKeys key (t.writeAll ws) := by
  induction ws generalizing t with
  | nil => exact h
  | cons w ws ih => exact ih (h.write w)

end Table

/-! ## Settled writes -/

/-- The record of the write's key is the one of `id`, and writing would not change it. -/
def Write.Settled (w : Write key) (t : Table α) (id : Int) : Prop :=
  ∃ row, t.at? key w.target = some ⟨id, row⟩ ∧ w.renew row = row

namespace Write.Settled

variable {w w' : Write key} {t : Table α} {id : Int}

theorem write_eq_self (h : w.Settled t id) : t.write w = t := by
  obtain ⟨row, hrow, hrenew⟩ := h
  unfold Table.write
  rw [hrow]
  refine Table.mapRows_eq_self fun r hr => ?_
  split
  · next hid =>
    have : r = ⟨id, row⟩ := Table.eq_of_id_eq hr (Table.mem_of_at? hrow) hid
    rw [this, hrenew]
  · rfl

variable [LawfulBEq κ]

theorem write_self : w.Settled (t.write w) (t.idAt key w.target) := Table.at?_write_self

theorem write_of_ne (h : w.Settled t id) (hne : w'.target ≠ w.target) :
    w.Settled (t.write w') id := by
  obtain ⟨row, hrow, hrenew⟩ := h
  exact ⟨row, by rw [Table.at?_write_of_ne hne, hrow], hrenew⟩

theorem writeAll_of_ne (h : w.Settled t id) {ws : List (Write key)}
    (hne : ∀ w' ∈ ws, w'.target ≠ w.target) : w.Settled (t.writeAll ws) id := by
  induction ws generalizing t with
  | nil => exact h
  | cons w' ws ih =>
    refine ih (h.write_of_ne (hne w' List.mem_cons_self)) fun w'' hw'' => ?_
    exact hne w'' (List.mem_cons_of_mem _ hw'')

theorem keep (h : w.Settled t id) {p : Record α → Bool}
    (hp : ∀ r ∈ t.records, key r.row = w.target → p r = true) : w.Settled (t.keep p) id := by
  obtain ⟨row, hrow, hrenew⟩ := h
  exact ⟨row, by rw [Table.at?_keep hp, hrow], hrenew⟩

/-- Where renewing the row of a key gives the row that would be made, that one is there. -/
theorem row_eq (h : w.Settled t id)
    (hfresh : ∀ row, key row = w.target → w.renew row = w.fresh) :
    (t.at? key w.target).map Record.row = some w.fresh := by
  obtain ⟨row, hrow, hrenew⟩ := h
  rw [hrow, ← hfresh row (Table.key_of_at? hrow), hrenew]
  rfl

end Write.Settled

/-! ## Many writes -/

namespace Table

variable [LawfulBEq κ] {t : Table α} {ws : List (Write key)}

/-- A record stays the one of its key, whatever is written. -/
theorem idAt_writeAll {r : Record α} (ws : List (Write key)) (h : t.at? key c = some r) :
    ∃ row, (t.writeAll ws).at? key c = some ⟨r.id, row⟩ := by
  induction ws generalizing t r with
  | nil => exact ⟨r.row, h⟩
  | cons w ws ih =>
    obtain ⟨row, hrow⟩ := idAt_write (w := w) h
    exact ih (r := ⟨r.id, row⟩) hrow

theorem at?_writeAll_of_ne (h : ∀ w ∈ ws, w.target ≠ c) :
    (t.writeAll ws).at? key c = t.at? key c := by
  induction ws generalizing t with
  | nil => rfl
  | cons w ws ih =>
    refine (ih fun w' hw' => h w' (List.mem_cons_of_mem _ hw')).trans ?_
    exact at?_write_of_ne (h w List.mem_cons_self)

/-- The last write under each key decides what becomes of its row. -/
theorem settled_writeAll {w : Write key} (h : lastWith? Write.target c ws = some w) :
    ∃ id, w.Settled (t.writeAll ws) id := by
  obtain rfl := key_of_lastWith? h
  refine foldl_of_lastWith? (P := fun t => ∃ id, w.Settled t id) h (fun t => ?_)
    (fun t w' hne => ?_) t
  · exact ⟨_, Write.Settled.write_self⟩
  · rintro ⟨id, hid⟩
    exact ⟨id, hid.write_of_ne hne⟩

/-- Where all rows are there already, writing renews every row by the writes of its id. -/
theorem writeAll_eq_mapRows (ids : κ → Int)
    (h : ∀ w ∈ ws, ∃ row, t.at? key w.target = some ⟨ids w.target, row⟩) :
    t.writeAll ws = t.mapRows fun id row =>
      ws.foldl (fun row w => if id = ids w.target then w.renew row else row) row := by
  -- Writing keeps the ids of all keys, so `ids` stays right for the rest.
  induction ws generalizing t with
  | nil => exact (mapRows_eq_self fun r _ => rfl).symm
  | cons w ws ih =>
    obtain ⟨row, hrow⟩ := h w List.mem_cons_self
    have hwrite : t.write w =
        t.mapRows fun id row => if id = ids w.target then w.renew row else row := by
      simp only [write, hrow, update]
    have hrest : ∀ w' ∈ ws, ∃ row, (t.write w).at? key w'.target = some ⟨ids w'.target, row⟩ := by
      intro w' hw'
      obtain ⟨row', hrow'⟩ := h w' (List.mem_cons_of_mem _ hw')
      exact idAt_write hrow'
    show (t.write w).writeAll ws = _
    rw [ih hrest, hwrite, mapRows_mapRows]
    rfl

omit [BEq κ] [LawfulBEq κ] in
/-- Renewing by a last write covers up what earlier ones of its key did. -/
theorem renew_foldl {w : Write key} {p : Write key → Prop} [DecidablePred p]
    {front : List (Write key)} (h : ∀ w' ∈ front, p w' → ∀ row, w.renew (w'.renew row) = w.renew row) (row : α) :
    w.renew (front.foldl (fun row w' => if p w' then w'.renew row else row) row) = w.renew row := by
  induction front generalizing row with
  | nil => rfl
  | cons w' front ih =>
    rw [List.foldl_cons, ih fun w'' hw'' => h w'' (List.mem_cons_of_mem _ hw'')]
    split
    · next hp => exact h w' List.mem_cons_self hp row
    · rfl

omit [BEq κ] [LawfulBEq κ] in
theorem foldl_eq_self {p : Write key → Prop} [DecidablePred p] {rest : List (Write key)}
    (h : ∀ w ∈ rest, ¬p w) (row : α) :
    rest.foldl (fun row w => if p w then w.renew row else row) row = row := by
  induction rest with
  | nil => rfl
  | cons w rest ih =>
    rw [List.foldl_cons, if_neg (h w List.mem_cons_self)]
    exact ih fun w' hw' => h w' (List.mem_cons_of_mem _ hw')

omit [BEq κ] [LawfulBEq κ] in
/-- Of the writes of one row, the last one says what the row is, if it covers up the ones before. -/
theorem foldl_eq_renew {ids : κ → Int} {id : Int} {w : Write key}
    (h : lastWith? (fun w => ids w.target) id ws = some w)
    (hcover : ∀ w' ∈ ws, ids w'.target = id → ∀ row, w.renew (w'.renew row) = w.renew row)
    (row : α) :
    ws.foldl (fun row w => if id = ids w.target then w.renew row else row) row = w.renew row := by
  obtain ⟨hid, front, rest, rfl, hrest⟩ := lastWith?_eq_some_iff.1 h
  have hfront : ∀ w' ∈ front, id = ids w'.target →
      ∀ row, w.renew (w'.renew row) = w.renew row := fun w' hw' hid' =>
    hcover w' (List.mem_append_left _ hw') hid'.symm
  have hbehind : ∀ w' ∈ rest, ¬id = ids w'.target := fun w' hw' hid' => hrest w' hw' hid'.symm
  rw [List.foldl_append, List.foldl_cons, if_pos hid.symm, foldl_eq_self hbehind,
    renew_foldl hfront]

/-- A record with the id of a key that is there has that key. -/
theorem key_of_idAt {r : Record α} (hr : r ∈ t.records)
    (hat : ∃ row, t.at? key c = some ⟨t.idAt key c, row⟩) (hid : t.idAt key c = r.id) :
    key r.row = c := by
  obtain ⟨row, hrow⟩ := hat
  have : r = ⟨t.idAt key c, row⟩ := eq_of_id_eq hr (mem_of_at? hrow) hid.symm
  exact this ▸ key_of_at? hrow

/-- Where the last write under each key is settled, and covers up the ones before it, writing
changes nothing. -/
theorem writeAll_eq_self
    (hsettled : ∀ w, lastWith? Write.target w.target ws = some w → ∃ id, w.Settled t id)
    (hcover : ∀ w ∈ ws, ∀ w' ∈ ws, w.target = w'.target →
      ∀ row, w.renew (w'.renew row) = w.renew row) :
    t.writeAll ws = t := by
  have hat : ∀ w ∈ ws, ∃ row, t.at? key w.target = some ⟨t.idAt key w.target, row⟩ := by
    intro w hw
    obtain ⟨last, hlast⟩ : ∃ last, lastWith? Write.target w.target ws = some last :=
      exists_lastWith? hw
    have htarget : last.target = w.target := key_of_lastWith? hlast
    obtain ⟨id, row, hrow, -⟩ := hsettled last (htarget ▸ hlast)
    rw [htarget] at hrow
    exact ⟨row, by rw [idAt_of_at? hrow, hrow]⟩
  rw [writeAll_eq_mapRows (t.idAt key) hat]
  refine mapRows_eq_self fun r hr => ?_
  -- The writes of the row are those whose target has its id; the last of them counts.
  cases hlast : lastWith? (fun w => t.idAt key w.target) r.id ws with
  | none => exact foldl_eq_self (fun w hw h => lastWith?_eq_none_iff.1 hlast w hw h.symm) r.row
  | some w =>
    have hw : w ∈ ws := mem_of_lastWith? hlast
    have hid : t.idAt key w.target = r.id := (lastWith?_eq_some_iff.1 hlast).1
    have hkey : key r.row = w.target := key_of_idAt hr (hat w hw) hid
    have hsame : ∀ w' ∈ ws, t.idAt key w'.target = r.id ↔ w'.target = w.target := by
      intro w' hw'
      constructor
      · intro hid'
        exact (key_of_idAt hr (hat w' hw') hid').symm.trans hkey
      · intro htarget
        rw [htarget, hid]
    -- So it is also the last write under its key, and settled.
    have hlast' : lastWith? Write.target w.target ws = some w := by
      rw [← hlast]
      exact (lastWith?_congr hsame).symm
    obtain ⟨id, row, hrow, hrenew⟩ := hsettled w hlast'
    have hr' : r = ⟨id, row⟩ :=
      eq_of_id_eq hr (mem_of_at? hrow) (hid.symm.trans (idAt_of_at? hrow))
    rw [foldl_eq_renew hlast fun w' hw' hid' => hcover w hw w' hw' ((hsame w' hw').1 hid').symm,
      hr', hrenew]

/-- Writing the same a second time changes nothing. -/
theorem writeAll_writeAll
    (hcover : ∀ w ∈ ws, ∀ w' ∈ ws, w.target = w'.target →
      ∀ row, w.renew (w'.renew row) = w.renew row) :
    (t.writeAll ws).writeAll ws = t.writeAll ws :=
  writeAll_eq_self (fun _ h => settled_writeAll h) hcover

end Table
end ApiCatalog
