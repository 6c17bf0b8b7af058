import ApiCatalog.Proofs.Text.Blank
import ApiCatalog.Proofs.Text.LowerCase
import ApiCatalog.Proofs.Text.Split
import ApiCatalog.Slug

/-!
# Slugs are canonical

The maximal runs of a class of characters in a text are told by what stands around them
(`MaximalRuns`): nothing of the class before the first, between two or behind the last. A text has
one such list of runs (`maximalRuns_iff`), and it is what is left between the hyphens when every gap
becomes a hyphen and the ends are trimmed (`dropAround_hyphenate`). Runs joined by a character
outside the class are the runs of the joined text, which makes a slug its own slug.
-/

namespace ApiCatalog

open Text

variable {p : Char → Bool} {c : Char} {cs gap run rest : List Char} {runs : List (List Char)}

/-! ## Maximal runs -/

/-- `runs` are, in order, the maximal runs of `p` in the text. -/
inductive MaximalRuns (p : Char → Bool) : List Char → List (List Char) → Prop where
  | none {gap : List Char} (hgap : ∀ c ∈ gap, p c = false) : MaximalRuns p gap []
  | run {gap run rest : List Char} {runs : List (List Char)} (hgap : ∀ c ∈ gap, p c = false)
      (hne : run ≠ []) (hrun : ∀ c ∈ run, p c = true) (hend : ∀ c ∈ rest.head?, p c = false)
      (hrest : MaximalRuns p rest runs) : MaximalRuns p (gap ++ (run ++ rest)) (run :: runs)

theorem MaximalRuns.cons_of_neg (hc : p c = false) (h : MaximalRuns p cs runs) :
    MaximalRuns p (c :: cs) runs := by
  cases h with
  | none hgap => exact .none (List.forall_mem_cons.2 ⟨hc, hgap⟩)
  | @run gap run rest runs hgap hne hrun hend hrest =>
    have hlonger : ∀ d ∈ c :: gap, p d = false := List.forall_mem_cons.2 ⟨hc, hgap⟩
    exact .run hlonger hne hrun hend hrest

/-- One more character of the class in front begins a run or makes the first one longer. -/
theorem MaximalRuns.cons_of_pos (hc : p c = true) (h : MaximalRuns p cs runs) :
    ∃ runs', MaximalRuns p (c :: cs) runs' := by
  have hnone : ∀ d ∈ ([] : List Char), p d = false := nofun
  have hsingle : ∀ d ∈ [c], p d = true := by simpa using hc
  cases h with
  | none hgap =>
    exact ⟨_, .run hnone (List.cons_ne_nil c []) hsingle
      (fun d hd => hgap d (List.mem_of_mem_head? hd)) (.none hgap)⟩
  | @run gap run rest runs hgap hne hrun hend hrest =>
    -- The first run begins right here, or behind a gap that keeps the character apart from it.
    cases gap with
    | nil =>
      have hlonger : ∀ d ∈ c :: run, p d = true := List.forall_mem_cons.2 ⟨hc, hrun⟩
      exact ⟨_, .run hnone (List.cons_ne_nil c run) hlonger hend hrest⟩
    | cons d gap =>
      refine ⟨_, .run hnone (List.cons_ne_nil c []) hsingle ?_
        (.run hgap hne hrun hend hrest)⟩
      intro e he
      obtain rfl : d = e := by simpa using he
      exact hgap d List.mem_cons_self

/-- Every text has maximal runs. -/
theorem exists_maximalRuns (p : Char → Bool) (cs : List Char) : ∃ runs, MaximalRuns p cs runs := by
  induction cs with
  | nil => exact ⟨[], .none (by simp)⟩
  | cons c cs ih =>
    obtain ⟨runs, hruns⟩ := ih
    cases hc : p c with
    | false => exact ⟨runs, hruns.cons_of_neg hc⟩
    | true => exact hruns.cons_of_pos hc

/-! ## The runs that are read off -/

/-- The runs of characters that satisfy `p`, none of them empty. -/
def runsOf (p : Char → Bool) : List Char → List (List Char)
  | [] => []
  | c :: rest =>
    if p c then
      match rest with
      | [] => [[c]]
      | d :: _ =>
        if p d then
          match runsOf p rest with
          | [] => [[c]]
          | run :: runs => (c :: run) :: runs
        else [c] :: runsOf p rest
    else runsOf p rest

/-- A gap at the front is passed over. -/
theorem runsOf_gap (hgap : ∀ c ∈ gap, p c = false) (rest : List Char) :
    runsOf p (gap ++ rest) = runsOf p rest := by
  induction gap with
  | nil => rfl
  | cons c gap ih =>
    obtain ⟨hc, hgap⟩ := List.forall_mem_cons.1 hgap
    simp [runsOf, hc, ih hgap]

/-- A run at the front is the first one. -/
theorem runsOf_run (hne : run ≠ []) (hrun : ∀ c ∈ run, p c = true)
    (hend : ∀ c ∈ rest.head?, p c = false) : runsOf p (run ++ rest) = run :: runsOf p rest := by
  induction run with
  | nil => exact absurd rfl hne
  | cons c run ih =>
    obtain ⟨hc, hrun⟩ := List.forall_mem_cons.1 hrun
    cases run with
    | cons d run =>
      have hd : p d = true := hrun d List.mem_cons_self
      have hmore := ih (List.cons_ne_nil d run) hrun
      rw [List.cons_append] at hmore
      rw [List.cons_append, List.cons_append, runsOf, if_pos hc]
      simp only [hd, hmore, if_true]
    | nil =>
      cases rest with
      | nil => simp [runsOf, hc]
      | cons d rest =>
        have hd : p d = false := hend d rfl
        simp [runsOf, hc, hd]

/-- A text has one list of maximal runs. -/
theorem MaximalRuns.eq_runsOf (h : MaximalRuns p cs runs) : runs = runsOf p cs := by
  induction h with
  | none hgap =>
    have hnone := runsOf_gap hgap []
    rw [List.append_nil] at hnone
    rw [hnone, runsOf]
  | run hgap hne hrun hend hrest ih => rw [runsOf_gap hgap, runsOf_run hne hrun hend, ← ih]

theorem maximalRuns_iff : MaximalRuns p cs runs ↔ runs = runsOf p cs := by
  refine ⟨MaximalRuns.eq_runsOf, ?_⟩
  rintro rfl
  obtain ⟨runs, hruns⟩ := exists_maximalRuns p cs
  rwa [← hruns.eq_runsOf]

/-- A run is not empty, and all of its characters are of the class. -/
theorem MaximalRuns.forall_run (h : MaximalRuns p cs runs) :
    ∀ run ∈ runs, run ≠ [] ∧ ∀ c ∈ run, p c = true := by
  induction h with
  | none => simp
  | run hgap hne hrun hend hrest ih => exact List.forall_mem_cons.2 ⟨⟨hne, hrun⟩, ih⟩

theorem MaximalRuns.forall_piece {sep : Char} (hsep : p sep = false) (h : MaximalRuns p cs runs) :
    ∀ run ∈ runs, run ≠ [] ∧ sep ∉ run := by
  refine fun run hrun => (h.forall_run run hrun).imp_right fun hall hmem => ?_
  rw [hall sep hmem] at hsep
  cases hsep

theorem MaximalRuns.mem (h : MaximalRuns p cs runs) (hrun : run ∈ runs) (hc : c ∈ run) :
    c ∈ cs := by
  induction h with
  | none => cases hrun
  | run hgap hne hall hend hrest ih =>
    rcases List.mem_cons.1 hrun with rfl | hrun
    · simp [hc]
    · simp [ih hrun]

/-- There is no run just if there is no character of the class. -/
theorem MaximalRuns.eq_nil_iff (h : MaximalRuns p cs runs) :
    runs = [] ↔ ∀ c ∈ cs, p c = false := by
  cases h with
  | none hgap => exact ⟨fun _ => hgap, fun _ => rfl⟩
  | run hgap hne hrun hend hrest =>
    refine iff_of_false (List.cons_ne_nil _ _) fun hnone => ?_
    obtain ⟨c, more, rfl⟩ := List.exists_cons_of_ne_nil hne
    have hpos := hrun c List.mem_cons_self
    rw [hnone c (by simp)] at hpos
    cases hpos

/-! ## Joined runs -/

/-- Runs joined by a character outside the class are the runs of the joined text. -/
theorem runsOf_joinWith {sep : Char} (hsep : p sep = false)
    (hruns : ∀ run ∈ runs, run ≠ [] ∧ ∀ c ∈ run, p c = true) :
    runsOf p (joinWith sep runs) = runs := by
  induction runs with
  | nil => rfl
  | cons run runs ih =>
    obtain ⟨⟨hne, hrun⟩, hruns⟩ := List.forall_mem_cons.1 hruns
    cases runs with
    | nil =>
      have hlone : runsOf p (run ++ []) = run :: runsOf p [] := runsOf_run hne hrun (by simp)
      rwa [List.append_nil] at hlone
    | cons next runs =>
      have hgap : ∀ c ∈ [sep], p c = false := by simpa using hsep
      have hend : ∀ c ∈ (sep :: joinWith sep (next :: runs)).head?, p c = false := by
        simpa using hsep
      calc runsOf p (joinWith sep (run :: next :: runs))
          = run :: runsOf p ([sep] ++ joinWith sep (next :: runs)) := runsOf_run hne hrun hend
        _ = run :: next :: runs := by rw [runsOf_gap hgap, ih hruns]

/-! ## Hyphens for the gaps -/

/-- The rest of a gap leaves no trace. -/
theorem hyphenate_gap (hgap : ∀ c ∈ gap, p c = false) (rest : List Char) :
    hyphenate p true (gap ++ rest) = hyphenate p true rest := by
  induction gap with
  | nil => rfl
  | cons c gap ih =>
    obtain ⟨hc, hgap⟩ := List.forall_mem_cons.1 hgap
    simp [hyphenate, hc, ih hgap]

/-- A run stays as it is. -/
theorem hyphenate_run {inGap : Bool} (hne : run ≠ []) (hrun : ∀ c ∈ run, p c = true)
    (rest : List Char) : hyphenate p inGap (run ++ rest) = run ++ hyphenate p false rest := by
  induction run generalizing inGap with
  | nil => exact absurd rfl hne
  | cons c run ih =>
    obtain ⟨hc, hrun⟩ := List.forall_mem_cons.1 hrun
    rw [List.cons_append, hyphenate, if_pos hc, List.cons_append]
    cases run with
    | nil => rfl
    | cons d run => rw [ih (List.cons_ne_nil d run) hrun]

/-- Outside a gap, the gap that begins gives the hyphen. -/
theorem hyphenate_false (hend : ∀ c ∈ cs.head?, p c = false) :
    cs = [] ∨ hyphenate p false cs = '-' :: hyphenate p true cs := by
  cases cs with
  | nil => exact .inl rfl
  | cons c cs =>
    have hc : p c = false := hend c rfl
    exact .inr (by simp [hyphenate, hc])

/-- Read from inside a gap, the text gives hyphens between the runs and behind the last one only. -/
theorem MaximalRuns.hyphenate_true (h : MaximalRuns p cs runs) :
    ∃ after, (∀ c ∈ after, c = '-') ∧ hyphenate p true cs = joinWith '-' runs ++ after := by
  induction h with
  | none hgap =>
    have hnone := hyphenate_gap hgap []
    rw [List.append_nil] at hnone
    exact ⟨[], by simp, hnone⟩
  | @run gap run rest runs hgap hne hrun hend hrest ih =>
    rw [hyphenate_gap hgap, hyphenate_run hne hrun]
    -- Behind the run the text ends, or a gap begins and gives one hyphen.
    rcases hyphenate_false hend with rfl | hhyphen
    · obtain rfl : runs = [] := hrest.eq_nil_iff.2 (by simp)
      exact ⟨[], by simp, rfl⟩
    obtain ⟨after, hafter, ih⟩ := ih
    rw [hhyphen, ih]
    cases runs with
    | nil => exact ⟨'-' :: after, by simpa using hafter, rfl⟩
    | cons next runs =>
      refine ⟨after, hafter, ?_⟩
      rw [joinWith_cons_cons, List.append_assoc, List.cons_append]

/-- The runs joined by hyphens are the text with a hyphen for every gap and none at its ends. -/
theorem dropAround_hyphenate (hhyphen : p '-' = false) (h : MaximalRuns p cs runs) :
    dropAround '-' (hyphenate p false cs) = joinWith '-' runs := by
  obtain ⟨after, hafter, htrue⟩ := h.hyphenate_true
  have hpieces := h.forall_piece hhyphen
  cases cs with
  | nil =>
    obtain rfl : runs = [] := h.eq_nil_iff.2 (by simp)
    rfl
  | cons c cs =>
    -- A gap at the start gives a hyphen more than `htrue` says, and that is dropped.
    cases hc : p c with
    | true =>
      have hnone : ∀ d ∈ ([] : List Char), d = '-' := nofun
      have hfalse : hyphenate p false (c :: cs) = hyphenate p true (c :: cs) := by
        rw [hyphenate, hyphenate, if_pos hc, if_pos hc]
      rw [hfalse, htrue]
      exact dropAround_joinWith hnone hafter hpieces
    | false =>
      have hlone : ∀ d ∈ ['-'], d = '-' := by simp
      have hend : ∀ d ∈ (c :: cs).head?, p d = false := by simpa using hc
      have hfalse := (hyphenate_false hend).resolve_left (List.cons_ne_nil c cs)
      rw [hfalse, htrue]
      exact dropAround_joinWith hlone hafter hpieces

/-! ## Slugs -/

theorem isSlugChar_hyphen : isSlugChar '-' = false := by
  decide +kernel

theorem toList_slugify (name : String) :
    (slugify name).toList = joinWith '-' (runsOf isSlugChar (lower name.toList)) := by
  rw [slugify, String.toList_ofList,
    dropAround_hyphenate isSlugChar_hyphen (maximalRuns_iff.2 rfl)]

/-- A slug is its own slug. -/
theorem slugify_slugify (name : String) : slugify (slugify name) = slugify name := by
  have hruns := maximalRuns_iff.2 (rfl : runsOf isSlugChar (lower name.toList) = _)
  have hsmall : ∀ c ∈ (slugify name).toList, IsSmall c := by
    intro c hc
    rw [toList_slugify] at hc
    rcases mem_joinWith hc with rfl | ⟨run, hrun, hc⟩
    · decide +kernel
    · exact isSmall_of_mem_lower (hruns.mem hrun hc)
  apply String.toList_injective
  rw [toList_slugify (slugify name), lower_eq_self hsmall, toList_slugify name,
    runsOf_joinWith isSlugChar_hyphen hruns.forall_run]

/-- A slug is made of the maximal runs of letters and numbers of the lower-cased name, joined by
single hyphens; it is empty just if there are none, and it is its own slug. -/
theorem slugify_canonical (name : String) :
    ∃ runs, (∀ runs', MaximalRuns (fun c => isLetter c || isNumber c) (lower name.toList) runs' ↔
        runs' = runs) ∧
      (∀ run ∈ runs, run ≠ [] ∧ ∀ c ∈ run, isLetter c = true ∨ isNumber c = true) ∧
      slugify name = .ofList (['-'].intercalate runs) ∧
      (slugify name = "" ↔ ∀ c ∈ lower name.toList, isLetter c = false ∧ isNumber c = false) ∧
      (slugify name).toList.head? ≠ some '-' ∧ (slugify name).toList.getLast? ≠ some '-' ∧
      slugify (slugify name) = slugify name := by
  have hruns : MaximalRuns isSlugChar (lower name.toList) _ := maximalRuns_iff.2 rfl
  have hempty : slugify name = "" ↔ runsOf isSlugChar (lower name.toList) = [] := by
    rw [← joinWith_eq_nil_iff fun run hrun => (hruns.forall_run run hrun).1, ← toList_slugify,
      String.toList_eq_nil_iff]
  -- The runs are those of the list; every other part is read off the joined text.
  refine ⟨runsOf isSlugChar (lower name.toList), fun _ => maximalRuns_iff, ?_, ?_, ?_, ?_, ?_,
    slugify_slugify name⟩
  · simpa [isSlugChar] using hruns.forall_run
  · rw [← joinWith_eq, ← toList_slugify, String.ofList_toList]
  · rw [hempty, hruns.eq_nil_iff]
    simp [isSlugChar]
  -- A hyphen at either end would have to come from a run, and no run has one.
  · rw [toList_slugify]
    exact head?_joinWith_ne (hruns.forall_piece isSlugChar_hyphen)
  · rw [toList_slugify]
    exact getLast?_joinWith_ne (hruns.forall_piece isSlugChar_hyphen)

end ApiCatalog
