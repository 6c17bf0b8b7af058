/-!
# Glob patterns

A pattern selects keys of files. `?` stands for any character, `*` for any text, separators
included, a set in brackets for one character that it lists or, behind `!`, does not list. `**`
is a whole component and stands for any number of components. All else stands for itself.
-/

namespace ApiCatalog

/-- One element of a pattern. -/
inductive GlobToken where
  | char (c : Char)
  | anyChar
  | anyText
  | anyComponents
  /-- The characters that lie in one of the spans, or in none if `negated`. -/
  | oneOf (negated : Bool) (spans : List (Char × Char))
deriving DecidableEq, Repr, Inhabited

/-- A pattern that has been read. -/
abbrev Glob := List GlobToken

/-- Why a text is no pattern. -/
inductive GlobFault where
  | tooManyStars
  | partOfComponent
  | badSet
deriving DecidableEq, Repr, Inhabited

/-- What is wrong with a text that is no pattern, and where. -/
structure GlobError where
  position : Nat
  fault : GlobFault
deriving DecidableEq, Repr, Inhabited

/-- What is wrong, in words. -/
def GlobFault.message : GlobFault → String
  | .tooManyStars => "wildcards are either regular `*` or recursive `**`"
  | .partOfComponent => "recursive wildcards must form a single path component"
  | .badSet => "invalid range pattern"

/-- What is wrong and where, in words. -/
def GlobError.message (e : GlobError) : String :=
  "Pattern syntax error near position " ++ toString e.position ++ ": " ++ e.fault.message

namespace Glob

/-! ## Reading -/

/-- The spans that the text of a set lists: `a-z`, or a character alone. -/
def spans : List Char → List (Char × Char)
  | first :: '-' :: last :: rest => (first, last) :: spans rest
  | c :: rest => (c, c) :: spans rest
  | [] => []

/-- The set behind an opening bracket, and what follows its closing bracket. The first character
of a set does not close it. -/
def set? (cs : List Char) : Option (GlobToken × List Char) :=
  let negated := cs.head? == some '!'
  match if negated then cs.tail else cs with
  | [] => none
  | c :: more =>
    match more.dropWhile (· != ']') with
    | [] => none
    | _ :: rest => some (.oneOf negated (spans (c :: more.takeWhile (· != ']'))), rest)

theorem length_set? {cs rest : List Char} {t : GlobToken} (h : set? cs = some (t, rest)) :
    rest.length < cs.length := by
  unfold set? at h
  dsimp only at h
  split at h
  · cases h
  · rename_i c more hbody
    split at h
    · cases h
    · rename_i d tail hdrop
      cases h
      have h₁ := (List.dropWhile_sublist (· != ']') (l := more)).length_le
      have h₂ : (c :: more).length ≤ cs.length := by
        rw [← hbody]
        split <;> simp
      rw [hdrop] at h₁
      simp only [List.length_cons] at h₁ h₂
      omega

/-- The tokens of the rest of a pattern of `total` characters; `fresh` says that a component
starts here. -/
def tokens (total : Nat) (fresh : Bool) : List Char → Except GlobError Glob
  | [] => .ok []
  | '?' :: rest => (.anyChar :: ·) <$> tokens total false rest
  | '*' :: '*' :: '*' :: rest => .error ⟨total - rest.length - 1, .tooManyStars⟩
  | '*' :: '*' :: rest =>
    if !fresh then .error ⟨total - rest.length - 3, .partOfComponent⟩
    else
      match rest with
      | [] => .ok [.anyComponents]
      | c :: more =>
        if c = '/' then (.anyComponents :: ·) <$> tokens total true more
        else .error ⟨total - rest.length, .partOfComponent⟩
  | '*' :: rest => (.anyText :: ·) <$> tokens total false rest
  | '[' :: rest =>
    match h : set? rest with
    | none => .error ⟨total - rest.length - 1, .badSet⟩
    | some (t, more) =>
      have := length_set? h
      (t :: ·) <$> tokens total false more
  | c :: rest => (.char c :: ·) <$> tokens total (c = '/') rest
termination_by cs => cs.length

/-- The pattern that a text writes. -/
def read (pattern : String) : Except GlobError Glob :=
  tokens pattern.length true pattern.toList

/-! ## Matching -/

/-- The token stands for the character. -/
def accepts (c : Char) : GlobToken → Bool
  | .char d => c = d
  | .anyChar => true
  | .oneOf negated spans => spans.any (fun s => s.1 ≤ c && c ≤ s.2) != negated
  | _ => false

/-- The text itself and what remains behind each of its characters. -/
def endings : List Char → List (List Char)
  | [] => [[]]
  | c :: rest => (c :: rest) :: endings rest

/-- What remains behind each separator, and at last nothing. -/
def behindSeparators : List Char → List (List Char)
  | [] => [[]]
  | c :: rest => if c = '/' then rest :: behindSeparators rest else behindSeparators rest

/-- The pattern stands for the whole text. -/
def covers : Glob → List Char → Bool
  | [], cs => cs.isEmpty
  | .anyText :: ts, cs => (endings cs).any (covers ts)
  | .anyComponents :: ts, cs => covers ts cs || (behindSeparators cs).any (covers ts)
  | t :: ts, cs =>
    match cs with
    | [] => false
    | c :: rest => accepts c t && covers ts rest

end Glob
end ApiCatalog
