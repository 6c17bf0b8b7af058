import ApiCatalog.Text.LowerCase

/-!
# Lower case is final

A character is small if lower-casing leaves it alone. The small letter of a capital is small: the
small letters of a run of capitals stand before or after every run, or between the capitals of a
run that takes every second code point (`caseRuns_apart`). So a text in lower case stays as it is
(`lower_lower`).
-/

namespace ApiCatalog.Text

variable {r r' : CaseRun} {c : Char} {cs : List Char} {k : Nat}

/-- A character that is no capital. -/
def IsSmall (c : Char) : Prop := c ≠ 'İ' ∧ caseRun? c = none

instance : Decidable (IsSmall c) := inferInstanceAs (Decidable (_ ∧ _))

/-! ## The table of capitals -/

/-- `k` is one of the capitals of the run. -/
def CaseRun.Holds (r : CaseRun) (k : Nat) : Prop :=
  r.first ≤ k ∧ k ≤ r.last ∧ (k - r.first) % r.step = 0

/-- The code point of the small letter of `k`. -/
def CaseRun.smallOf (r : CaseRun) (k : Nat) : Nat := ((k : Int) + r.shift).toNat

/-- No small letter of `r` is a capital of `r'`. -/
def CaseRun.apart (r r' : CaseRun) : Bool :=
  -- Spelled out, since this is evaluated for all pairs of runs.
  (r.smallOf r.last).blt r'.first || r'.last.blt (r.smallOf r.first) ||
    (r'.step.beq 2 && (r.step.beq 2 || r.first.beq r.last) &&
      !(r.smallOf r.first % 2).beq (r'.first % 2))

/-- The small letters of the run are characters. -/
def CaseRun.valid (r : CaseRun) : Bool :=
  -r.shift ≤ r.first && (r.smallOf r.last < 0xD800 ||
    0xDFFF < r.smallOf r.first && r.smallOf r.last < 0x110000)

/-- The dotted capital, which the table leaves out, stands for a run of its own here. -/
theorem caseRuns_apart :
    (caseRuns.all fun r => (⟨0x130, 0x130, 1, 0⟩ :: caseRuns).all r.apart) = true := by
  decide +kernel

theorem caseRuns_valid : ∀ r ∈ caseRuns, r.valid = true := by
  decide +kernel

theorem caseRun?_eq_none_iff : caseRun? c = none ↔ ∀ r ∈ caseRuns, ¬ r.Holds c.toNat := by
  simp [caseRun?, CaseRun.Holds]

theorem caseRun?_eq_some (h : caseRun? c = some r) : r ∈ caseRuns ∧ r.Holds c.toNat := by
  refine ⟨List.mem_of_find?_eq_some h, ?_⟩
  simpa [CaseRun.Holds, and_assoc] using List.find?_some h

theorem CaseRun.toNat_small (hr : r.valid = true) (hk : r.Holds k) :
    (Char.ofNat (r.smallOf k)).toNat = r.smallOf k := by
  obtain ⟨hfirst, hlast, -⟩ := hk
  simp only [valid, Bool.and_eq_true, Bool.or_eq_true, decide_eq_true_eq] at hr
  have hchar : (r.smallOf k).isValidChar := by
    simp only [Nat.isValidChar, smallOf] at hr ⊢
    omega
  rw [Char.ofNat, dif_pos hchar]
  rfl

/-- Where the runs are apart, no small letter is a capital. -/
theorem CaseRun.not_holds_small (happart : r.apart r' = true) (hr : r.valid = true)
    (hk : r.Holds k) : ¬ r'.Holds (r.smallOf k) := by
  obtain ⟨hfirst, hlast, hstep⟩ := hk
  rintro ⟨hfirst', hlast', hstep'⟩
  simp only [valid, apart, Bool.and_eq_true, Bool.or_eq_true, decide_eq_true_eq, Nat.blt_eq,
    Nat.beq_eq, Bool.not_eq_true'] at hr happart
  simp only [smallOf] at hr happart hfirst' hlast' hstep'
  rcases happart with (h | h) | ⟨⟨htwo', htwo | hone⟩, hparity⟩
  · omega
  · omega
  -- Two alternating runs: the parities differ.
  · have hne := Nat.ne_of_beq_eq_false hparity
    rw [htwo] at hstep
    rw [htwo'] at hstep'
    omega
  · have hne := Nat.ne_of_beq_eq_false hparity
    rw [htwo'] at hstep'
    omega

/-! ## Text in lower case -/

theorem lowerChar_of_isSmall (hc : IsSmall c) : lowerChar c = c := by
  simp [lowerChar, hc.2]

theorem isSmall_lowerChar (hc : c ≠ 'İ') : IsSmall (lowerChar c) := by
  cases hrun : caseRun? c with
  | none =>
    rw [lowerChar, hrun]
    exact ⟨hc, hrun⟩
  | some r =>
    obtain ⟨hmem, hholds⟩ := caseRun?_eq_some hrun
    have hvalid := caseRuns_valid r hmem
    have hnat : (lowerChar c).toNat = r.smallOf c.toNat := by
      rw [lowerChar, hrun]
      exact CaseRun.toNat_small hvalid hholds
    -- The lower case letter lies in no run of upper case ones, the dotted one included.
    have hapart : ∀ r' ∈ ⟨0x130, 0x130, 1, 0⟩ :: caseRuns, ¬ r'.Holds (lowerChar c).toNat := by
      intro r' hr'
      have hruns := List.all_eq_true.1 (List.all_eq_true.1 caseRuns_apart r hmem) r' hr'
      rw [hnat]
      exact CaseRun.not_holds_small hruns hvalid hholds
    constructor
    · intro hdotted
      apply hapart _ List.mem_cons_self
      rw [hdotted]
      exact ⟨by decide, by decide, by decide⟩
    · exact caseRun?_eq_none_iff.2 fun r' hr' => hapart r' (List.mem_cons_of_mem _ hr')

theorem isSmall_of_mem_lowerAfter {before : List Char} (hc : c ∈ lowerAfter before cs) :
    IsSmall c := by
  induction cs generalizing before with
  | nil => cases hc
  | cons d rest ih =>
    simp only [lowerAfter, List.mem_append] at hc
    rcases hc with hc | hc
    · split at hc
      -- A capital sigma, in either form.
      · split at hc
        · rw [List.mem_singleton.1 hc]
          decide +kernel
        · rw [List.mem_singleton.1 hc]
          decide +kernel
      split at hc
      -- The dotted capital, which becomes a letter and a dot.
      · have hparts : c = 'i' ∨ c = '\u0307' := by simpa using hc
        rcases hparts with rfl | rfl <;> decide +kernel
      · next hdotted =>
        rw [List.mem_singleton.1 hc]
        exact isSmall_lowerChar hdotted
    · exact ih hc

/-- Every character of a text in lower case is small. -/
theorem isSmall_of_mem_lower (hc : c ∈ lower cs) : IsSmall c :=
  isSmall_of_mem_lowerAfter hc

theorem lowerAfter_eq_self {before : List Char} (hcs : ∀ c ∈ cs, IsSmall c) :
    lowerAfter before cs = cs := by
  induction cs generalizing before with
  | nil => rfl
  | cons c rest ih =>
    have hc := hcs c List.mem_cons_self
    have hsigma : c ≠ 'Σ' := by
      rintro rfl
      exact absurd hc (by decide +kernel)
    rw [lowerAfter, ih fun d hd => hcs d (List.mem_cons_of_mem _ hd), if_neg hsigma, if_neg hc.1,
      lowerChar_of_isSmall hc]
    rfl

/-- Lower-casing leaves a text of small characters alone. -/
theorem lower_eq_self (hcs : ∀ c ∈ cs, IsSmall c) : lower cs = cs :=
  lowerAfter_eq_self hcs

theorem lower_lower (cs : List Char) : lower (lower cs) = lower cs :=
  lower_eq_self fun _ => isSmall_of_mem_lower

end ApiCatalog.Text
