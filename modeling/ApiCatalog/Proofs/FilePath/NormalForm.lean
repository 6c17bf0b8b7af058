import ApiCatalog.Proofs.FilePath
import Mathlib.Logic.Relation

/-!
# Normal forms of paths

The components of a normal form are what is left on a stack when the pieces of a path have gone over
it. The same comes of shortening the list of pieces wherever that is possible, one piece or one name
with its `..` at a time, in any order, until nothing can be shortened (`shortensTo_iff`). They are
names, and a path made of names stands for itself (`normalize_eq_self_iff`), so a normal form can be
put in place of the path in front of another one (`normalize_normalize_append`).
-/

namespace ApiCatalog.FilePath

open Text

variable {path path' : String} {root name : RawPath} {ns : List RawPath} {cs piece : List Char}
  {done ps qs : List (List Char)}

/-- The piece says where to go down to: it is not empty, and not one of the two that are made of
dots only. -/
structure IsComponent (piece : List Char) : Prop where
  ne_nil : piece ≠ []
  ne_dot : piece ≠ ['.']
  ne_up : piece ≠ ['.', '.']

/-- Backslashes and slashes part the pieces of a path. -/
def isSeparator (c : Char) : Bool := c == '/' || c == '\\'

/-- The pieces of a path, between separators of either kind. -/
def parts (path : String) : List (List Char) := path.toList.splitOnP isSeparator

/-- One step on the way to a normal form: a piece goes that says nothing, a name goes with the `..`
behind it, or a `..` goes that stands in front. -/
inductive Shortens : List (List Char) → List (List Char) → Prop where
  | skip (front back : List (List Char)) {piece : List Char} (hskip : piece = [] ∨ piece = ['.']) :
      Shortens (front ++ piece :: back) (front ++ back)
  | undo (front back : List (List Char)) {piece : List Char} (hpiece : IsComponent piece) :
      Shortens (front ++ piece :: ['.', '.'] :: back) (front ++ back)
  | top (back : List (List Char)) : Shortens (['.', '.'] :: back) back

/-- Shortening `ps` comes to `qs`, which cannot be shortened any more. -/
def ShortensTo (ps qs : List (List Char)) : Prop :=
  Relation.ReflTransGen Shortens ps qs ∧ ∀ shorter, ¬Shortens qs shorter

/-- There are names with single separators between them, or nothing at all. -/
structure IsNormal (path : String) : Prop where
  no_backslash : '\\' ∉ path.toList
  no_start : path.startsWith "/" = false
  no_stop : path.endsWith "/" = false
  components : path ≠ "" → ∀ piece ∈ splitOn '/' path.toList, IsComponent piece

/-! ## One piece more -/

theorem step_of_skip (h : piece = [] ∨ piece = ['.']) (done : List (List Char)) :
    step done piece = done := by
  rcases h with rfl | rfl <;> rfl

theorem step_up (done : List (List Char)) : step done ['.', '.'] = done.dropLast := rfl

theorem step_of_isComponent (h : IsComponent piece) (done : List (List Char)) :
    step done piece = done ++ [piece] := by
  have hstays : (piece.isEmpty || piece == ['.']) = false := by simp [h.ne_nil, h.ne_dot]
  have hback : (piece == ['.', '.']) = false := beq_false_of_ne h.ne_up
  rw [step, hstays, hback]
  rfl

/-- A piece says nothing, leads back or leads down. -/
theorem piece_cases (piece : List Char) :
    (piece = [] ∨ piece = ['.']) ∨ piece = ['.', '.'] ∨ IsComponent piece := by
  by_cases hskip : piece = [] ∨ piece = ['.']
  · exact .inl hskip
  by_cases hup : piece = ['.', '.']
  · exact .inr (.inl hup)
  obtain ⟨hnil, hdot⟩ := not_or.1 hskip
  exact .inr (.inr ⟨hnil, hdot, hup⟩)

/-- What is on the stack was there or came on it as a name. -/
theorem mem_foldl_step (h : piece ∈ ps.foldl step done) :
    piece ∈ done ∨ piece ∈ ps ∧ IsComponent piece := by
  induction ps generalizing done with
  | nil => exact .inl h
  | cons p ps ih =>
    rcases ih h with hstep | ⟨hmem, hpiece⟩
    · rcases piece_cases p with hskip | rfl | hp
      · rw [step_of_skip hskip] at hstep
        exact .inl hstep
      · exact .inl (List.dropLast_subset _ hstep)
      · rw [step_of_isComponent hp, List.mem_append, List.mem_singleton] at hstep
        rcases hstep with hstep | rfl
        · exact .inl hstep
        · exact .inr ⟨List.mem_cons_self, hp⟩
    · exact .inr ⟨List.mem_cons_of_mem _ hmem, hpiece⟩

/-- Names stay on the stack, one on top of the other. -/
theorem foldl_step_of_isComponent (h : ∀ p ∈ ps, IsComponent p) (done : List (List Char)) :
    ps.foldl step done = done ++ ps := by
  induction ps generalizing done with
  | nil => simp
  | cons p ps ih =>
    obtain ⟨hp, hps⟩ := List.forall_mem_cons.1 h
    rw [List.foldl_cons, step_of_isComponent hp, ih hps, List.append_assoc]
    rfl

/-! ## Shortening -/

/-- The stack does not see that the pieces were shortened. -/
theorem Shortens.foldl_step_eq (h : Shortens ps qs) : ps.foldl step [] = qs.foldl step [] := by
  cases h with
  | skip front back hskip =>
    rw [List.foldl_append, List.foldl_append, List.foldl_cons, step_of_skip hskip]
  | undo front back hpiece =>
    rw [List.foldl_append, List.foldl_append, List.foldl_cons, List.foldl_cons,
      step_of_isComponent hpiece, step_up, List.dropLast_concat]
  | top back => rfl

theorem foldl_step_eq_of_reaches (h : Relation.ReflTransGen Shortens ps qs) :
    ps.foldl step [] = qs.foldl step [] := by
  induction h with
  | refl => rfl
  | tail _ hlast ih => rw [ih, hlast.foldl_step_eq]

/-- Pieces behind names can be shortened to what the stack has in the end. -/
theorem reaches_foldl_step (hdone : ∀ p ∈ done, IsComponent p) (ps : List (List Char)) :
    Relation.ReflTransGen Shortens (done ++ ps) (ps.foldl step done) := by
  -- On the components still to come; `done` is the stack, of which every entry stays a component.
  induction ps generalizing done with
  | nil =>
    rw [List.append_nil]
    exact .refl
  | cons p ps ih =>
    rw [List.foldl_cons]
    rcases piece_cases p with hskip | rfl | hp
    · rw [step_of_skip hskip]
      exact .head (.skip done ps hskip) (ih hdone)
    -- A `..` takes the last component with it, or nothing when the stack is empty.
    · rw [step_up]
      rcases List.eq_nil_or_concat' done with rfl | ⟨front, last, rfl⟩
      · exact .head (.top ps) (ih hdone)
      · have hlast : IsComponent last := hdone last (by simp)
        have hfront : ∀ q ∈ front, IsComponent q := fun q hq => hdone q (by simp [hq])
        rw [List.dropLast_concat, List.append_assoc]
        exact .head (.undo front ps hlast) (ih hfront)
    · have hmore : ∀ q ∈ done ++ [p], IsComponent q := by
        intro q hq
        rcases List.mem_append.1 hq with hq | hq
        · exact hdone q hq
        · rwa [List.mem_singleton.1 hq]
      rw [step_of_isComponent hp]
      simpa using ih hmore

/-- Names alone cannot be shortened. -/
theorem not_shortens_of_isComponent (h : ∀ p ∈ ps, IsComponent p) (qs : List (List Char)) :
    ¬Shortens ps qs := by
  intro hshortens
  cases hshortens with
  | skip front back hskip =>
    have hpiece := h _ (List.mem_append_right front List.mem_cons_self)
    exact hskip.elim hpiece.ne_nil hpiece.ne_dot
  | undo front back hpiece => exact (h ['.', '.'] (by simp)).ne_up rfl
  | top back => exact (h ['.', '.'] List.mem_cons_self).ne_up rfl

/-- However pieces are shortened, they come to what is on the stack in the end. -/
theorem shortensTo_iff : ShortensTo ps qs ↔ qs = ps.foldl step [] := by
  have hnone : ∀ p ∈ ([] : List (List Char)), IsComponent p := nofun
  constructor
  · rintro ⟨hreaches, hend⟩
    have hself : qs.foldl step [] = qs :=
      (Relation.reflTransGen_iff_eq hend).1 (reaches_foldl_step hnone qs)
    rw [foldl_step_eq_of_reaches hreaches, hself]
  · rintro rfl
    refine ⟨reaches_foldl_step hnone ps, not_shortens_of_isComponent fun p hp => ?_⟩
    exact ((mem_foldl_step hp).resolve_left List.not_mem_nil).2

/-! ## Components of a normal form -/

theorem not_mem_forwardSlashes (cs : List Char) : '\\' ∉ forwardSlashes cs := by
  intro hmem
  obtain ⟨c, -, hc⟩ := List.mem_map.1 hmem
  split at hc
  · cases hc
  · next hne => exact hne hc

theorem splitOn_forwardSlashes (cs : List Char) :
    splitOn '/' (forwardSlashes cs) = cs.splitOnP isSeparator := by
  rw [splitOn_eq]
  induction cs with
  | nil => rfl
  | cons c cs ih =>
    rw [forwardSlashes, List.map_cons, ← forwardSlashes, List.splitOn_cons_eq_if_modifyHead, ih,
      List.splitOnP_cons_eq_if_modifyHead]
    by_cases hback : c = '\\'
    · subst hback
      rfl
    · simp [isSeparator, hback]

theorem normalComponents_eq (path : String) :
    normalComponents path.toList = (parts path).foldl step [] := by
  rw [normalComponents, splitOn_forwardSlashes, parts]

/-- A normal form has names for components. -/
theorem mem_normalComponents (h : piece ∈ normalComponents cs) :
    IsComponent piece ∧ '/' ∉ piece ∧ '\\' ∉ piece := by
  obtain ⟨hmem, hpiece⟩ := (mem_foldl_step h).resolve_left List.not_mem_nil
  exact ⟨hpiece, fun hslash => (mem_of_mem_splitOn hmem hslash).2 rfl,
    fun hback => not_mem_forwardSlashes cs (mem_of_mem_splitOn hmem hback).1⟩

theorem ne_nil_of_mem_normalComponents (h : piece ∈ normalComponents cs) :
    piece ≠ [] ∧ '/' ∉ piece :=
  ⟨(mem_normalComponents h).1.ne_nil, (mem_normalComponents h).2.1⟩

/-- Paths with one normal form have the same components there. -/
theorem normalComponents_inj (h : normalize path = normalize path') :
    normalComponents path.toList = normalComponents path'.toList :=
  joinWith_inj (fun _ => ne_nil_of_mem_normalComponents) (fun _ => ne_nil_of_mem_normalComponents)
    (String.ofList_injective h)

theorem toList_normalize (path : String) :
    (normalize path).toList = joinWith '/' (normalComponents path.toList) :=
  String.toList_ofList

/-- The normal form of pieces that are joined comes of these pieces. -/
theorem normalComponents_joinWith (h : ∀ p ∈ ps, '/' ∉ p ∧ '\\' ∉ p) :
    normalComponents (joinWith '/' ps) = ps.foldl step [] := by
  have hback : '\\' ∉ joinWith '/' ps := by
    intro hmem
    rcases mem_joinWith hmem with hmem | ⟨p, hp, hmem⟩
    · cases hmem
    · exact (h p hp).2 hmem
  unfold normalComponents
  rw [forwardSlashes_of_not_mem hback]
  by_cases hne : ps = []
  · subst hne
    rfl
  · rw [splitOn_joinWith hne fun p hp => (h p hp).1]

/-- The components of a normal form are those that it has as a path. -/
theorem normalComponents_normalize (path : String) :
    normalComponents (normalize path).toList = normalComponents path.toList := by
  rw [toList_normalize, normalComponents_joinWith fun p hp => (mem_normalComponents hp).2,
    foldl_step_of_isComponent fun p hp => (mem_normalComponents hp).1]
  rfl

theorem normalComponents_append_cons (front rest : List Char) :
    normalComponents (front ++ '/' :: rest) =
      (splitOn '/' (forwardSlashes rest)).foldl step (normalComponents front) := by
  have hforward : forwardSlashes (front ++ '/' :: rest) =
      forwardSlashes front ++ '/' :: forwardSlashes rest := by simp [forwardSlashes]
  unfold normalComponents
  rw [hforward, splitOn_append_cons, List.foldl_append]

/-- A separator at the end says nothing. -/
theorem normalComponents_append_slash (front : List Char) :
    normalComponents (front ++ ['/']) = normalComponents front :=
  normalComponents_append_cons front []

/-! ## Names behind a path -/

/-- A name is a component, as it is displayed. -/
theorem foldl_step_name (hname : IsPlainName name) (done : List (List Char)) :
    (splitOn '/' (forwardSlashes (decodeLossy name))).foldl step done =
      done ++ [decodeLossy name] := by
  have hslash : '/' ∉ decodeLossy name := mt (mem_decodeLossy_iff (by decide)).1 hname.no_slash
  have hback : '\\' ∉ decodeLossy name :=
    mt (mem_decodeLossy_iff (by decide)).1 hname.no_backslash
  rw [forwardSlashes_of_not_mem hback, splitOn_of_not_mem hslash]
  exact step_of_isComponent ⟨mt decodeLossy_eq_nil_iff.1 hname.ne_empty,
    mt decodeLossy_eq_dot_iff.1 hname.ne_dot, mt decodeLossy_eq_up_iff.1 hname.ne_up⟩ done

theorem normalComponents_join_name (hname : IsPlainName name) (hroot : root ≠ []) :
    normalComponents (decodeLossy (join root name)) =
      normalComponents (decodeLossy root) ++ [decodeLossy name] := by
  obtain ⟨front, hjoin, hfront⟩ := exists_join (relative_of_isName hname.toIsName) hroot
  have hsame : normalComponents (decodeLossy root) = normalComponents (decodeLossy front) := by
    rcases hfront with hfront | hfront
    · rw [hfront]
    · rw [hfront, slash_eq, decodeLossy_append_cons (by decide), decodeLossy_nil,
        normalComponents_append_slash]
  rw [hjoin, slash_eq, decodeLossy_append_cons (by decide), normalComponents_append_cons,
    foldl_step_name hname, hsame]

/-- Names behind a path are the last components of its normal form. -/
theorem normalComponents_foldl_join (hns : ∀ n ∈ ns, IsPlainName n) (hroot : root ≠ []) :
    normalComponents (decodeLossy (ns.foldl join root)) =
      normalComponents (decodeLossy root) ++ ns.map decodeLossy := by
  induction ns generalizing root with
  | nil => simp
  | cons name ns ih =>
    obtain ⟨hname, hns⟩ := List.forall_mem_cons.1 hns
    rw [List.foldl_cons, ih hns (join_ne_nil hname.ne_empty root),
      normalComponents_join_name hname hroot, List.append_assoc]
    rfl

/-- Names behind other pieces are the last components of the normal form. -/
theorem normalComponents_joinWith_append (hns : ∀ n ∈ ns, IsPlainName n) (ps : List (List Char)) :
    normalComponents (joinWith '/' (ps ++ ns.map decodeLossy)) =
      normalComponents (joinWith '/' ps) ++ ns.map decodeLossy := by
  induction ns generalizing ps with
  | nil => simp
  | cons name ns ih =>
    obtain ⟨hname, hns⟩ := List.forall_mem_cons.1 hns
    have hnext : normalComponents (joinWith '/' (ps ++ [decodeLossy name])) =
        normalComponents (joinWith '/' ps) ++ [decodeLossy name] := by
      by_cases hps : ps = []
      · subst hps
        exact foldl_step_name hname []
      · rw [joinWith_append_singleton _ hps, normalComponents_append_cons, foldl_step_name hname]
    have hassoc : ps ++ (name :: ns).map decodeLossy =
        ps ++ [decodeLossy name] ++ ns.map decodeLossy := by simp
    rw [hassoc, ih hns, hnext]
    simp

/-! ## Normal forms -/

theorem normalize_normalize (path : String) : normalize (normalize path) = normalize path := by
  rw [normalize, normalComponents_normalize, ← normalize]

theorem isNormal_normalize (path : String) : IsNormal (normalize path) := by
  have hpieces : ∀ p ∈ normalComponents path.toList, p ≠ [] ∧ '/' ∉ p :=
    fun p => ne_nil_of_mem_normalComponents
  -- No backslash, no slash at the front, none at the end, no piece that would be resolved.
  refine ⟨?_, ?_, ?_, ?_⟩
  · rw [toList_normalize]
    intro hback
    rcases mem_joinWith hback with hback | ⟨p, hp, hback⟩
    · cases hback
    · exact (mem_normalComponents hp).2.2 hback
  · rw [String.startsWith_string_eq_false_iff, toList_normalize]
    rintro ⟨more, hmore⟩
    refine head?_joinWith_ne hpieces ?_
    rw [← hmore]
    rfl
  · have hends : ∀ t : String, t.endsWith "/" = true ↔ t.toList.getLast? = some '/' := by
      intro t
      rw [← List.singleton_suffix_iff_getLast?_eq_some]
      simp [← String.endsWith_toSlice]
    rw [← Bool.not_eq_true, hends, toList_normalize]
    exact getLast?_joinWith_ne hpieces
  -- The pieces of the result are the components again, since none of them holds a slash.
  · intro hne piece hpiece
    have hcomponents : normalComponents path.toList ≠ [] := by
      intro hnil
      refine hne (String.toList_inj.1 ?_)
      rw [toList_normalize, hnil]
      rfl
    rw [toList_normalize, splitOn_joinWith hcomponents fun p hp => (hpieces p hp).2] at hpiece
    exact (mem_normalComponents hpiece).1

/-- A path stands for itself just if it is made of names with single separators between them. -/
theorem normalize_eq_self_iff : normalize path = path ↔ IsNormal path := by
  constructor
  · intro hself
    rw [← hself]
    exact isNormal_normalize path
  · intro h
    by_cases hne : path = ""
    · subst hne
      rfl
    · have hcomponents : normalComponents path.toList = splitOn '/' path.toList := by
        rw [normalComponents, forwardSlashes_of_not_mem h.no_backslash,
          foldl_step_of_isComponent (h.components hne)]
        rfl
      rw [normalize, hcomponents, joinWith_splitOn, String.ofList_toList]

/-- What stands in front of a separator may be in normal form already. -/
theorem normalize_normalize_append (path rest : String) :
    normalize (normalize path ++ "/" ++ rest) = normalize (path ++ "/" ++ rest) := by
  have hsplit : ∀ front : String, normalComponents (front ++ "/" ++ rest).toList =
      (splitOn '/' (forwardSlashes rest.toList)).foldl step (normalComponents front.toList) := by
    intro front
    rw [← normalComponents_append_cons]
    simp
  have hsame : normalComponents (normalize path ++ "/" ++ rest).toList =
      normalComponents (path ++ "/" ++ rest).toList := by
    rw [hsplit, hsplit, normalComponents_normalize]
  exact congrArg (fun cs => String.ofList (joinWith '/' cs)) hsame

/-- However the pieces of a path are shortened, its normal form is what is left of them, and it is
made of names with single separators between them. Such paths are their own normal form, and the
normal form of a longer path can be worked out from that of its beginning. -/
theorem normalize_canonical (path : String) :
    (∃ ns, (∀ ps, ShortensTo (parts path) ps ↔ ps = ns) ∧
        normalize path = .ofList (['/'].intercalate ns)) ∧
      IsNormal (normalize path) ∧ (normalize path = path ↔ IsNormal path) ∧
      normalize (normalize path) = normalize path ∧
      ∀ rest, normalize (path ++ "/" ++ rest) = normalize (normalize path ++ "/" ++ rest) := by
  refine ⟨⟨normalComponents path.toList, fun ps => ?_, ?_⟩, isNormal_normalize path,
    normalize_eq_self_iff, normalize_normalize path,
    fun rest => (normalize_normalize_append path rest).symm⟩
  · rw [normalComponents_eq]
    exact shortensTo_iff
  · rw [normalize, joinWith_eq]

example : normalize "libraries\\.//joomla/../cms.php" = "libraries/cms.php" := by decide

end ApiCatalog.FilePath
