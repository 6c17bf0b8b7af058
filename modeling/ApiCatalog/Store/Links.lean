/-!
# Links

Links lead from rows of one table to rows of another, or of the same. They are pairs of ids,
strictly ascending, so links with the same pairs are equal.
-/

namespace ApiCatalog

/-- A pair of ids comes before another. -/
def PairBefore (p q : Int × Int) : Prop := p.1 < q.1 ∨ p.1 = q.1 ∧ p.2 < q.2

instance (p q : Int × Int) : Decidable (PairBefore p q) :=
  inferInstanceAs (Decidable (_ ∨ _))

theorem PairBefore.trans {p q r : Int × Int} (h : PairBefore p q) (h' : PairBefore q r) :
    PairBefore p r := by
  unfold PairBefore at *
  omega

/-- Pairs of ids, each once. -/
structure Links where
  pairs : List (Int × Int)
  ascending : pairs.Pairwise PairBefore

namespace Links

/-- No pairs. -/
def empty : Links := ⟨[], .nil⟩

instance : EmptyCollection Links := ⟨empty⟩

instance : Inhabited Links := ⟨empty⟩

/-- Links with the same pairs are equal. -/
@[ext] theorem ext {l m : Links} (h : l.pairs = m.pairs) : l = m := by
  cases l; cases m; cases h; rfl

instance : DecidableEq Links := fun l m =>
  if h : l.pairs = m.pairs then isTrue (ext h) else isFalse fun hlm => h (hlm ▸ rfl)

instance : Repr Links := ⟨fun l n => reprPrec l.pairs n⟩

/-- The pairs with one more. -/
def insertPair (p : Int × Int) : List (Int × Int) → List (Int × Int)
  | [] => [p]
  | q :: rest =>
    if PairBefore p q then p :: q :: rest
    else if p = q then q :: rest
    else q :: insertPair p rest

/-- A pair is there after the insertion if it was there before or is the new one. -/
theorem mem_insertPair {p q : Int × Int} :
    ∀ {pairs : List (Int × Int)}, q ∈ insertPair p pairs ↔ q = p ∨ q ∈ pairs
  | [] => by simp [insertPair]
  | r :: rest => by
    unfold insertPair
    split
    · simp
    · split
      · next h => subst h; simp
      · rw [List.mem_cons, mem_insertPair, List.mem_cons]
        constructor <;> rintro (h | h | h) <;> simp [h]

theorem ascending_insertPair (p : Int × Int) :
    ∀ {pairs : List (Int × Int)}, pairs.Pairwise PairBefore → (insertPair p pairs).Pairwise PairBefore
  | [], _ => List.pairwise_singleton _ _
  | q :: rest, h => by
    obtain ⟨hq, hrest⟩ := List.pairwise_cons.1 h
    unfold insertPair
    split
    · next hpq =>
      refine List.pairwise_cons.2 ⟨fun r hr => ?_, h⟩
      rcases List.mem_cons.1 hr with rfl | hr
      · exact hpq
      · exact hpq.trans (hq r hr)
    · split
      · exact h
      · next hbefore hne =>
        refine List.pairwise_cons.2 ⟨fun r hr => ?_, ascending_insertPair p hrest⟩
        rcases mem_insertPair.1 hr with rfl | hr
        · have : ¬(r.1 = q.1 ∧ r.2 = q.2) := fun h => hne (Prod.ext h.1 h.2)
          unfold PairBefore at *
          omega
        · exact hq r hr

/-- The links with one more, unless it is there. -/
def insert (l : Links) (p : Int × Int) : Links :=
  ⟨insertPair p l.pairs, ascending_insertPair p l.ascending⟩

/-- The links without those that do not satisfy `p`. -/
def keep (l : Links) (p : Int × Int → Bool) : Links := ⟨l.pairs.filter p, l.ascending.filter p⟩

/-- The ids that the links of `id` lead to. -/
def targets (l : Links) (id : Int) : List Int := (l.pairs.filter (·.1 == id)).map Prod.snd

/-- The ids whose links lead to `id`. -/
def sources (l : Links) (id : Int) : List Int := (l.pairs.filter (·.2 == id)).map Prod.fst

end Links
end ApiCatalog
