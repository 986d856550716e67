import Mathlib.Data.Nat.Bitwise

/-!
# Type-length-value encoding

A variable-size number is one byte below 253, or one of the bytes 253, 254 and
255 followed by 2, 4 or 8 bytes in network order. An element is a type, the
length of its value and the value. Readers take any of the forms of a number;
the type of an element is neither 0 nor above 32 bits. `Sequence` says which
byte strings are concatenations of complete elements, and `parse` decides it.
-/

namespace Tlv

/-! ## Variable-size numbers -/

/-- The number with the given bytes in network order. -/
def beNat (l : List UInt8) : ℕ := l.foldl (fun acc b => acc * 256 + b.toNat) 0

/-- The `k` lowest bytes of a number in network order. -/
def beBytes : ℕ → ℕ → List UInt8
  | 0, _ => []
  | k + 1, n => beBytes k (n / 256) ++ [UInt8.ofNat n]

theorem length_beBytes (k n : ℕ) : (beBytes k n).length = k := by
  induction k generalizing n with
  | zero => rfl
  | succ k ih => rw [beBytes, List.length_append, ih, List.length_singleton]

theorem beNat_beBytes {k n : ℕ} (h : n < 256 ^ k) : beNat (beBytes k n) = n := by
  induction k generalizing n with
  | zero =>
      have hn : n = 0 := by simpa using h
      rw [hn]
      rfl
  | succ k ih =>
      have hdiv : n / 256 < 256 ^ k :=
        Nat.div_lt_of_lt_mul (by rwa [Nat.mul_comm, ← Nat.pow_succ])
      have hlast : (UInt8.ofNat n).toNat = n % 256 := UInt8.toNat_ofNat'
      have hstep : beNat (beBytes (k + 1) n) =
          beNat (beBytes k (n / 256)) * 256 + n % 256 := by
        rw [beNat, beBytes, List.foldl_append, List.foldl_cons, List.foldl_nil, hlast]
        rfl
      rw [hstep, ih hdiv, Nat.div_add_mod']

/-- The number of bytes that follow the first byte of a long number. -/
def extent (first : UInt8) : ℕ :=
  if first = 253 then 2 else if first = 254 then 4 else 8

def readVarNumber : List UInt8 → Option (ℕ × List UInt8)
  | [] => none
  | first :: rest =>
      if first < 253 then some (first.toNat, rest)
      else if rest.length < extent first then none
      else some (beNat (rest.take (extent first)), rest.drop (extent first))

/-- The shortest form of a number. -/
def varNumber (n : ℕ) : List UInt8 :=
  if n < 253 then [UInt8.ofNat n]
  else if n < 2 ^ 16 then 253 :: beBytes 2 n
  else if n < 2 ^ 32 then 254 :: beBytes 4 n
  else 255 :: beBytes 8 n

/-- The byte strings that are read as a number. -/
inductive IsVarNumber : ℕ → List UInt8 → Prop
  | short (b : UInt8) : b < 253 → IsVarNumber b.toNat [b]
  | long (first : UInt8) (rest : List UInt8) : ¬ first < 253 →
      rest.length = extent first → IsVarNumber (beNat rest) (first :: rest)

variable {n : ℕ} {l rest : List UInt8}

theorem IsVarNumber.length_pos (h : IsVarNumber n l) : 0 < l.length := by
  cases h <;> exact Nat.succ_pos _

theorem isVarNumber_varNumber (h : n < 2 ^ 64) : IsVarNumber n (varNumber n) := by
  have hlong : ∀ (first : UInt8) (k : ℕ), ¬ first < 253 → extent first = k →
      n < 256 ^ k → IsVarNumber n (first :: beBytes k n) := by
    intro first k hfirst hk hn
    have hnum := IsVarNumber.long first (beBytes k n) hfirst
      ((length_beBytes k n).trans hk.symm)
    rwa [beNat_beBytes hn] at hnum
  unfold varNumber
  split_ifs with h1 h2 h3
  · have hval : (UInt8.ofNat n).toNat = n := by
      rw [UInt8.toNat_ofNat']
      omega
    have hlt : UInt8.ofNat n < 253 := by
      rw [UInt8.lt_iff_toNat_lt, hval]
      exact h1
    have hnum := IsVarNumber.short (UInt8.ofNat n) hlt
    rwa [hval] at hnum
  · exact hlong 253 2 (by decide) rfl h2
  · exact hlong 254 4 (by decide) rfl h3
  · exact hlong 255 8 (by decide) rfl h

theorem readVarNumber_eq_some_iff :
    readVarNumber l = some (n, rest) ↔ ∃ t, IsVarNumber n t ∧ l = t ++ rest := by
  constructor
  · intro h
    match l, h with
    | first :: tail, h =>
        rw [readVarNumber] at h
        split_ifs at h with hshort hlen
        · cases h
          exact ⟨[first], .short first hshort, rfl⟩
        · cases h
          refine ⟨first :: tail.take (extent first), .long first _ hshort ?_, ?_⟩
          · rw [List.length_take]
            omega
          · rw [List.cons_append, List.take_append_drop]
  · rintro ⟨t, hnum, rfl⟩
    cases hnum with
    | short b hb => exact if_pos hb
    | long first tail hfirst hlen =>
        rw [List.cons_append, readVarNumber, if_neg hfirst, if_neg (by simp [hlen]),
          ← hlen, List.take_left, List.drop_left]

/-! ## Elements -/

structure Element where
  type : ℕ
  value : List UInt8
deriving DecidableEq

/-- The shortest encoding of an element. -/
def Element.encode (e : Element) : List UInt8 :=
  varNumber e.type ++ varNumber e.value.length ++ e.value

def readElement (l : List UInt8) : Option (Element × List UInt8) :=
  match readVarNumber l with
  | none => none
  | some (type, l) =>
      if type = 0 ∨ 2 ^ 32 ≤ type then none
      else
        match readVarNumber l with
        | none => none
        | some (length, l) =>
            if l.length < length then none
            else some (⟨type, l.take length⟩, l.drop length)

/-- The encodings of an element. -/
structure IsElement (e : Element) (t l : List UInt8) : Prop where
  type_pos : 0 < e.type
  type_lt : e.type < 2 ^ 32
  type_bytes : IsVarNumber e.type t
  length_bytes : IsVarNumber e.value.length l

variable {e : Element}

theorem readElement_eq_some_iff : readElement l = some (e, rest) ↔
    ∃ t len, IsElement e t len ∧ l = t ++ len ++ e.value ++ rest := by
  constructor
  · intro h
    unfold readElement at h
    split at h
    · cases h
    · rename_i type l₁ htype
      obtain ⟨t, ht, rfl⟩ := readVarNumber_eq_some_iff.mp htype
      split_ifs at h with hrange
      split at h
      · cases h
      · rename_i length l₂ hlength
        obtain ⟨len, hlen, rfl⟩ := readVarNumber_eq_some_iff.mp hlength
        split_ifs at h with hshort
        cases h
        have hvalue : (l₂.take length).length = length := by
          rw [List.length_take]
          omega
        refine ⟨t, len, ⟨by simp only; omega, by simp only; omega, ht, ?_⟩, ?_⟩
        · rwa [← hvalue] at hlen
        · rw [List.append_assoc, List.take_append_drop, List.append_assoc]
  · rintro ⟨t, len, h, rfl⟩
    have htype : readVarNumber (t ++ len ++ e.value ++ rest) =
        some (e.type, len ++ (e.value ++ rest)) :=
      readVarNumber_eq_some_iff.mpr ⟨t, h.type_bytes, by simp⟩
    have hlength : readVarNumber (len ++ (e.value ++ rest)) =
        some (e.value.length, e.value ++ rest) :=
      readVarNumber_eq_some_iff.mpr ⟨len, h.length_bytes, rfl⟩
    have hpos := h.type_pos
    have hlt := h.type_lt
    simp only [readElement, htype, hlength]
    rw [if_neg (by omega), if_neg (by simp), List.take_left, List.drop_left]

/-- **Round trip** of one element. -/
theorem readElement_encode (hpos : 0 < e.type) (htype : e.type < 2 ^ 32)
    (hlen : e.value.length < 2 ^ 64) (rest : List UInt8) :
    readElement (e.encode ++ rest) = some (e, rest) :=
  readElement_eq_some_iff.mpr ⟨varNumber e.type, varNumber e.value.length,
    ⟨hpos, htype, isVarNumber_varNumber (by omega), isVarNumber_varNumber hlen⟩, rfl⟩

/-! ## Sequences of elements -/

/-- The concatenations of complete elements. -/
inductive Sequence : List UInt8 → Prop
  | nil : Sequence []
  | cons {e : Element} {t len rest : List UInt8} : IsElement e t len →
      Sequence rest → Sequence (t ++ len ++ e.value ++ rest)

/-- Read at most `fuel` elements, to the end of the bytes. -/
def parseFuel : ℕ → List UInt8 → Option (List Element)
  | _, [] => some []
  | 0, _ :: _ => none
  | fuel + 1, l =>
      match readElement l with
      | none => none
      | some (e, rest) => (parseFuel fuel rest).map (e :: ·)

/-- Read all bytes as elements; each takes at least one byte. -/
def parse (l : List UInt8) : Option (List Element) := parseFuel l.length l

theorem length_lt_of_readElement (h : readElement l = some (e, rest)) :
    rest.length < l.length := by
  obtain ⟨t, len, hel, rfl⟩ := readElement_eq_some_iff.mp h
  have ht := hel.type_bytes.length_pos
  simp only [List.length_append]
  omega

theorem sequence_iff_of_readElement (hne : l ≠ []) :
    Sequence l ↔ ∃ e rest, readElement l = some (e, rest) ∧ Sequence rest := by
  constructor
  · intro h
    cases h with
    | nil => exact absurd rfl hne
    | cons hel hrest =>
        exact ⟨_, _, readElement_eq_some_iff.mpr ⟨_, _, hel, rfl⟩, hrest⟩
  · rintro ⟨e, rest, hread, hrest⟩
    obtain ⟨t, len, hel, rfl⟩ := readElement_eq_some_iff.mp hread
    exact .cons hel hrest

theorem parseFuel_isSome_iff {fuel : ℕ} (h : l.length ≤ fuel) :
    (parseFuel fuel l).isSome ↔ Sequence l := by
  induction fuel generalizing l with
  | zero =>
      have hnil : l = [] := List.length_eq_zero_iff.mp (Nat.le_zero.mp h)
      subst hnil
      exact ⟨fun _ => .nil, fun _ => rfl⟩
  | succ fuel ih =>
      match l with
      | [] => exact ⟨fun _ => .nil, fun _ => rfl⟩
      | b :: l =>
          rw [sequence_iff_of_readElement (by simp)]
          cases hread : readElement (b :: l) with
          | none => simp [parseFuel, hread]
          | some r =>
              obtain ⟨e, rest⟩ := r
              have hlt := length_lt_of_readElement hread
              have hrest := ih (l := rest) (by omega)
              simp [parseFuel, hread, hrest]

/-- **`parse` decides `Sequence`.** -/
theorem parse_isSome_iff : (parse l).isSome ↔ Sequence l :=
  parseFuel_isSome_iff (Nat.le_refl _)

instance (l : List UInt8) : Decidable (Sequence l) :=
  decidable_of_iff _ parse_isSome_iff

end Tlv
