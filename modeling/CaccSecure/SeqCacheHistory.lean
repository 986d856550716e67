import CaccSecure.Lib.Machine
import CaccSecure.SeqCache

/-!
# Histories of the SEQN cache

What a SEQN cache is for: it answers from the accepted calls since the last
`clear`, and only from the `K` most recently accepted names among them. The
cache of the source is compared with that history.
-/

namespace CaccSecure
namespace SeqCache

variable {Name : Type} [DecidableEq Name]

inductive Call (Name : Type) where
  | validateSequence (contentName : Name) (incomingSeq : UInt8)
  | clear

/-- One call; the verdict of `validateSequence` is its result. -/
def call (c : SeqCache Name) : Call Name → Bool × SeqCache Name
  | .validateSequence n s => c.validateSequence n s
  | .clear => (true, c.clear)

/-- The accepted calls since the last `clear`, newest first, after one more
event of a run. -/
def acceptedCalls (A : List (Name × UInt8))
    (e : Machine.Event (SeqCache Name) (Call Name) Bool) : List (Name × UInt8) :=
  match e.inp with
  | .validateSequence n s => if e.out then (n, s) :: A else A
  | .clear => []

/-- The `K` most recently accepted names. -/
def recentNames (K : ℕ) (A : List (Name × UInt8)) : List Name :=
  Recency.recent K (A.map Prod.fst)

/-- The SEQN of the latest accepted call of a name, if the name is recent. -/
def latestSeqn (K : ℕ) (A : List (Name × UInt8)) (n : Name) : Option UInt8 :=
  if n ∈ recentNames K A then A.lookup n else none

/-- The cache holds what the history `A` says. -/
structure Remembers (K : ℕ) (c : SeqCache Name) (A : List (Name × UInt8)) :
    Prop where
  capacity : c.maxTrackedEntries = K
  names : c.names = recentNames K A
  lastSeqn : ∀ n, c.lastSeqn n = latestSeqn K A n

variable {K : ℕ} {c : SeqCache Name} {A : List (Name × UInt8)} {n : Name}
  {s : UInt8}

theorem remembers_new (K : ℕ) : Remembers K (new K : SeqCache Name) [] where
  capacity := rfl
  names := by simp [recentNames, Recency.recent]
  lastSeqn n := by simp [latestSeqn]

theorem Remembers.clear (h : Remembers K c A) : Remembers K c.clear [] where
  capacity := h.capacity
  names := by simp [recentNames, Recency.recent]
  lastSeqn n := by simp [latestSeqn]

/-- An accepted call moves its name to the front of the recent names. -/
theorem Remembers.accept (hK : 1 ≤ K) (h : Remembers K c A)
    (hacc : (c.validateSequence n s).1 = true) :
    Remembers K (c.validateSequence n s).2 ((n, s) :: A) := by
  have hnames : (c.validateSequence n s).2.names = recentNames K ((n, s) :: A) := by
    rw [names_of_accepted hacc, h.capacity, h.names]
    exact Recency.touch_recent hK
  refine ⟨by simpa using h.capacity, hnames, fun m => ?_⟩
  rw [lastSeqn_of_accepted hacc, hnames, latestSeqn]
  by_cases hm : m = n
  · subst hm
    have hself : m ∈ recentNames K ((m, s) :: A) := by
      rw [recentNames, List.map_cons, ← Recency.touch_recent hK]
      exact Recency.mem_touch_self
    simp [hself]
  · rw [if_neg hm]
    split_ifs with hmem
    · -- a name that stays was recent before
      have hold : m ∈ recentNames K A := by
        rw [recentNames, List.map_cons, ← Recency.touch_recent hK] at hmem
        exact Recency.mem_of_mem_touch hm hmem
      have hbeq : (m == n) = false := by simpa using hm
      rw [h.lastSeqn, latestSeqn, if_pos hold, List.lookup_cons, hbeq]
    · rfl

theorem Remembers.call (hK : 1 ≤ K) (h : Remembers K c A) (x : Call Name) :
    Remembers K (c.call x).2 (acceptedCalls A ⟨c, x, (c.call x).1, (c.call x).2⟩) := by
  cases x with
  | clear => exact h.clear
  | validateSequence n s =>
      cases hv : (c.validateSequence n s).1 with
      | true => simpa [SeqCache.call, acceptedCalls, hv] using h.accept hK hv
      | false =>
          simpa [SeqCache.call, acceptedCalls, hv, validateSequence_of_rejected hv]
            using h

/-- **Refinement.** After every run of calls the cache holds what the accepted
calls since the last `clear` say. -/
theorem remembers_final (hK : 1 ≤ K) (xs : List (Call Name)) :
    Remembers K (Machine.final call (new K) xs)
      ((Machine.trace call (new K) xs).foldl acceptedCalls []) :=
  Machine.final_foldl xs (remembers_new K) fun _ _ x h => h.call hK x

/-- The verdict of the next call, from the history. -/
theorem Remembers.rejects_iff (h : Remembers K c A) :
    (c.validateSequence n s).1 = false ↔
      n ∈ recentNames K A ∧ ∃ last, A.lookup n = some last ∧
        ((s.toNat + 256 - last.toNat) % 256 = 0 ∨
          128 < (s.toNat + 256 - last.toNat) % 256) := by
  have hstale : ∀ last, ¬ Fresh last s ↔
      (s.toNat + 256 - last.toNat) % 256 = 0 ∨
        128 < (s.toNat + 256 - last.toNat) % 256 := by
    intro last
    unfold Fresh Circular.Newer Circular.fwd
    omega
  rw [← Bool.not_eq_true, validateSequence_fst, h.lastSeqn, latestSeqn]
  split_ifs with hmem
  · simp only [not_forall, exists_prop, hmem, true_and, hstale]
  · simp [hmem]

/-- A name is forgotten exactly when `K` distinct names were accepted after
its own last acceptance. -/
theorem Remembers.forgotten_iff (h : Remembers K c A)
    {A₁ A₂ : List (Name × UInt8)} (hA : A = A₁ ++ (n, s) :: A₂)
    (hlast : n ∉ A₁.map Prod.fst) :
    n ∉ c.names ↔ K ≤ (A₁.map Prod.fst).eraseDups.length := by
  have hsplit : A.map Prod.fst = A₁.map Prod.fst ++ n :: A₂.map Prod.fst := by
    rw [hA, List.map_append, List.map_cons]
  rw [h.names, recentNames, Recency.mem_recent_iff hsplit hlast]
  exact Nat.not_lt

/-- **The cache refines its history.** For every capacity `K ≥ 1` and every run
of calls, with `A` the calls accepted since the last `clear`, newest first. -/
theorem refines_history (K : ℕ) (hK : 1 ≤ K) (xs : List (Call Name)) :
    let c := Machine.final call (new K) xs
    let A := (Machine.trace call (new K) xs).foldl acceptedCalls []
    c.names = (A.map Prod.fst).eraseDups.take K ∧
    (∀ n, c.lastSeqn n = if n ∈ c.names then A.lookup n else none) ∧
    (∀ n s, (c.validateSequence n s).1 = false ↔
      n ∈ c.names ∧ ∃ last, A.lookup n = some last ∧
        ((s.toNat + 256 - last.toNat) % 256 = 0 ∨
          128 < (s.toNat + 256 - last.toNat) % 256)) ∧
    (∀ n s, (c.validateSequence n s).1 = false →
      (c.validateSequence n s).2 = c) ∧
    (∀ n s A₁ A₂, A = A₁ ++ (n, s) :: A₂ → n ∉ A₁.map Prod.fst →
      (n ∉ c.names ↔ K ≤ (A₁.map Prod.fst).eraseDups.length)) := by
  intro c A
  have h : Remembers K c A := remembers_final hK xs
  refine ⟨h.names, ?_, ?_, ?_, ?_⟩
  · intro n
    rw [h.lastSeqn, h.names]
    rfl
  · intro n s
    rw [h.names]
    exact h.rejects_iff
  · exact fun _ _ hrej => validateSequence_of_rejected hrej
  · exact fun _ _ _ _ hA hlast => h.forgotten_iff hA hlast

theorem refines_history_two :
    let c := Machine.final call (new 2 : SeqCache ℕ)
      [.validateSequence 0 5, .validateSequence 1 7, .clear,
        .validateSequence 0 9, .validateSequence 0 9]
    c.names = [0] ∧ c.lastSeqn 0 = some 9 := by
  have h := refines_history 2 (by decide)
    ([.validateSequence 0 5, .validateSequence 1 7, .clear,
      .validateSequence 0 9, .validateSequence 0 9] : List (Call ℕ))
  have hA : (Machine.trace call (new 2 : SeqCache ℕ)
      [.validateSequence 0 5, .validateSequence 1 7, .clear,
        .validateSequence 0 9, .validateSequence 0 9]).foldl acceptedCalls [] =
      [(0, 9)] := by
    decide +kernel
  simp only [hA] at h
  obtain ⟨hnames, hseqn, -⟩ := h
  have hzero := hseqn 0
  rw [hnames] at hzero
  exact ⟨hnames, hzero⟩

end SeqCache
end CaccSecure
