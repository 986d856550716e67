import Mathlib.Data.Fintype.BigOperators
import Mathlib.Data.Set.Card

/-!
# Guessing the values of an unknown function

A player guesses values of a function, adaptively: its state moves on after every
guess, and after a wrong one in a way that does not depend on the function. If all
functions are equally likely, each guess is right with the same small chance, so
`q` guesses are with at most `q` times that chance, whatever was learnt from the
wrong ones.
-/

namespace Guessing

variable {α β σ : Type*}

/-- The guess that is made in `s`, if one is, is right. -/
def Hits (guess : σ → Option (α × β)) (f : α → β) (s : σ) : Prop :=
  ∃ p, guess s = some p ∧ f p.1 = p.2

/-- One of the next `k` guesses is right. -/
def Wins (step : (α → β) → σ → σ) (guess : σ → Option (α × β)) (f : α → β) :
    ℕ → σ → Prop
  | 0, _ => False
  | k + 1, s => Hits guess f s ∨ Wins step guess f k (step f s)

/-- The number of guesses in the next `k` steps. -/
def guesses (step : (α → β) → σ → σ) (guess : σ → Option (α × β)) (f : α → β) :
    ℕ → σ → ℕ
  | 0, _ => 0
  | k + 1, s => (guess s).isSome.toNat + guesses step guess f k (step f s)

/-- Nothing is learnt from a step without a right guess. -/
def Blind (step : (α → β) → σ → σ) (guess : σ → Option (α × β)) : Prop :=
  ∀ f f' s, ¬ Hits guess f s → ¬ Hits guess f' s → step f s = step f' s

/-- One in `Nat.card β` functions takes a given value at a given point. -/
theorem ncard_eq_at [Finite α] [Finite β] (a : α) (b : β) :
    {f : α → β | f a = b}.ncard * Nat.card β = Nat.card (α → β) := by
  classical
  have := Fintype.ofFinite α
  have := Fintype.ofFinite β
  have hfilter : {f : α → β | f a = b} =
      ((Fintype.piFinset fun _ : α => (Finset.univ : Finset β)).filter (· a = b) :
        Set (α → β)) := by
    ext f
    simp
  rw [hfilter, Set.ncard_coe_finset,
    Fintype.card_filter_piFinset_const_eq_of_mem _ _ (Finset.mem_univ b),
    Nat.card_eq_fintype_card, Nat.card_eq_fintype_card, Fintype.card_fun, Finset.card_univ,
    ← pow_succ, Nat.sub_add_cancel (Fintype.card_pos_iff.mpr ⟨a⟩)]

/-- As many functions as there are values in `B`. -/
theorem ncard_mem_at [Finite α] [Finite β] (a : α) (B : Finset β) :
    {f : α → β | f a ∈ B}.ncard * Nat.card β = B.card * Nat.card (α → β) := by
  classical
  induction B using Finset.induction_on with
  | empty => simp
  | insert b B hb ih =>
      have hunion : {f : α → β | f a ∈ insert b B} =
          {f : α → β | f a = b} ∪ {f : α → β | f a ∈ B} := by
        ext f
        simp
      have hdisjoint : Disjoint {f : α → β | f a = b} {f : α → β | f a ∈ B} := by
        rw [Set.disjoint_left]
        rintro f rfl hf
        exact hb hf
      rw [hunion, Set.ncard_union_eq hdisjoint (Set.toFinite _) (Set.toFinite _), Nat.add_mul,
        ncard_eq_at, ih, Finset.card_insert_of_notMem hb, Nat.add_mul, Nat.one_mul, Nat.add_comm]

variable {step : (α → β) → σ → σ} {guess : σ → Option (α × β)}

theorem not_hits_of_none {f : α → β} {s : σ} (hs : guess s = none) : ¬ Hits guess f s := by
  rintro ⟨p, hp, -⟩
  rw [hs] at hp
  cases hp

theorem hits_iff {f : α → β} {s : σ} {p : α × β} (hs : guess s = some p) :
    Hits guess f s ↔ f p.1 = p.2 := by
  constructor
  · rintro ⟨p', hp', hf⟩
    rw [hs] at hp'
    cases hp'
    exact hf
  · exact fun hf => ⟨p, hs, hf⟩

/-- Where `p` is guessed, whoever wins is hit now, or is missed and wins later. -/
theorem wins_succ_subset {A : Set (α → β)} {k : ℕ} {s : σ} {p : α × β}
    (hs : guess s = some p) :
    {f | f ∈ A ∧ Wins step guess f (k + 1) s} ⊆
      {f | f p.1 = p.2} ∪
        {f | f ∈ {f | f ∈ A ∧ f p.1 ≠ p.2} ∧ Wins step guess f k (step f s)} := by
  rintro f ⟨hf, hwins⟩
  by_cases heq : f p.1 = p.2
  · exact Or.inl heq
  · exact Or.inr ⟨⟨hf, heq⟩, hwins.resolve_left (mt (hits_iff hs).mp heq)⟩

/-- The functions that are missed in `s` go on from one state, so a bound on the wins
from each state is a bound on theirs. -/
theorem ncard_wins_le_of_not_hits (hblind : Blind step guess) {B : Set (α → β)}
    {k r c : ℕ} {s : σ}
    (hwins : ∀ s', (∀ f ∈ B, guesses step guess f k s' ≤ r) →
      {f | f ∈ B ∧ Wins step guess f k s'}.ncard * Nat.card β ≤ r * c)
    (hmiss : ∀ f ∈ B, ¬ Hits guess f s)
    (hguesses : ∀ f ∈ B, guesses step guess f k (step f s) ≤ r) :
    {f | f ∈ B ∧ Wins step guess f k (step f s)}.ncard * Nat.card β ≤ r * c := by
  rcases B.eq_empty_or_nonempty with rfl | ⟨f₀, hf₀⟩
  · simp
  have hstep : ∀ f ∈ B, step f s = step f₀ s := fun f hf =>
    hblind f f₀ s (hmiss f hf) (hmiss f₀ hf₀)
  have hset : {f | f ∈ B ∧ Wins step guess f k (step f s)} =
      {f | f ∈ B ∧ Wins step guess f k (step f₀ s)} := by
    ext f
    exact and_congr_right fun hf => by rw [hstep f hf]
  rw [hset]
  exact hwins (step f₀ s) fun f hf => hstep f hf ▸ hguesses f hf

variable [Finite α] [Finite β]

/-- A guess adds one function in `Nat.card β` to those that win after it. -/
theorem ncard_wins_succ_le {A : Set (α → β)} {k : ℕ} {s : σ} {p : α × β}
    (hs : guess s = some p) :
    {f | f ∈ A ∧ Wins step guess f (k + 1) s}.ncard * Nat.card β ≤
      Nat.card (α → β) +
        {f | f ∈ {f | f ∈ A ∧ f p.1 ≠ p.2} ∧ Wins step guess f k (step f s)}.ncard *
          Nat.card β := by
  set later := {f | f ∈ {f | f ∈ A ∧ f p.1 ≠ p.2} ∧ Wins step guess f k (step f s)}
  have hsubset : {f | f ∈ A ∧ Wins step guess f (k + 1) s} ⊆ {f | f p.1 = p.2} ∪ later :=
    wins_succ_subset hs
  have hcard := (Set.ncard_le_ncard hsubset (Set.toFinite _)).trans (Set.ncard_union_le _ _)
  calc _ ≤ ({f : α → β | f p.1 = p.2}.ncard + later.ncard) * Nat.card β :=
        Nat.mul_le_mul_right (Nat.card β) hcard
    _ = Nat.card (α → β) + later.ncard * Nat.card β := by rw [Nat.add_mul, ncard_eq_at]

/-- **Adaptive guessing.** If each of the functions of `A` meets at most `q` guesses, at
most `q` in `Nat.card β` functions meet a right one. -/
theorem ncard_wins_le (hblind : Blind step guess) (A : Set (α → β)) (k q : ℕ) (s : σ)
    (hq : ∀ f ∈ A, guesses step guess f k s ≤ q) :
    {f | f ∈ A ∧ Wins step guess f k s}.ncard * Nat.card β ≤ q * Nat.card (α → β) := by
  induction k generalizing A q s with
  | zero =>
      have hempty : {f | f ∈ A ∧ Wins step guess f 0 s} = ∅ := by
        ext f
        simp [Wins]
      rw [hempty, Set.ncard_empty, Nat.zero_mul]
      exact Nat.zero_le _
  | succ k ih =>
      cases hs : guess s with
      | none =>
          have hmiss : ∀ f, ¬ Hits guess f s := fun f => not_hits_of_none hs
          simp only [Wins, hmiss, false_or]
          refine ncard_wins_le_of_not_hits hblind (fun s' => ih A q s')
            (fun f _ => hmiss f) fun f hf => ?_
          have hle := hq f hf
          simpa only [guesses, hs, Option.isSome_none, Bool.toNat_false, Nat.zero_add] using hle
      | some p =>
          rcases A.eq_empty_or_nonempty with rfl | ⟨f₁, hf₁⟩
          · simp
          have hle : ∀ f ∈ A, 1 + guesses step guess f k (step f s) ≤ q := by
            intro f hf
            have hle := hq f hf
            simpa only [guesses, hs, Option.isSome_some, Bool.toNat_true] using hle
          obtain ⟨r, rfl⟩ : ∃ r, q = r + 1 := ⟨q - 1, by have := hle f₁ hf₁; omega⟩
          -- the guess is spent, and those that it misses have `r` left
          have hlater := ncard_wins_le_of_not_hits hblind
            (fun s' => ih {f | f ∈ A ∧ f p.1 ≠ p.2} r s')
            (fun f hf => mt (hits_iff hs).mp hf.2)
            fun f hf => by have := hle f hf.1; omega
          calc _ ≤ _ := ncard_wins_succ_le hs
            _ ≤ Nat.card (α → β) + r * Nat.card (α → β) := Nat.add_le_add_left hlater _
            _ = (r + 1) * Nat.card (α → β) := by rw [Nat.add_mul, Nat.one_mul, Nat.add_comm]

end Guessing
