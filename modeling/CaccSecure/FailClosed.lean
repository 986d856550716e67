import CaccSecure.RouterPipeline

/-!
# Failing closed

Without a usable MAC `computeHmac` returns the tag 0, which both comparisons
take for a genuine tag, and an empty key is used like any other. Verification
fails closed for every received tag but one.
-/

namespace CaccSecure
namespace RouterPipeline

variable {Name : Type} [DecidableEq Name]

/-- What the HMAC primitive returns for the packet under the router's key. -/
def digest (P : Primitives Name) (p : RouterPipeline Name) (a : Arrival Name) :
    Option (List UInt8) :=
  P.hmac p.security.key
    (SecurityEngine.buffer P a.contentName a.hdr.ph a.hdr.rhc a.hdr.seqn)

/-- The engine has no usable MAC for the packet. -/
def NoUsableMac (P : Primitives Name) (p : RouterPipeline Name) (a : Arrival Name) :
    Prop :=
  p.security.key = [] ∨ SecurityEngine.Unusable (p.digest P a)

/-- The received tag is not 0 where there is no usable digest, and not the start
of the digest where there is one. -/
def Mismatched (tag : UInt32) (digest : Option (List UInt8)) : Prop :=
  (SecurityEngine.Unusable digest → tag ≠ 0) ∧
    ∀ out, digest = some out → 4 ≤ out.length → Bytes.bytes32 tag ≠ out.take 4

/-- Both callers fail closed: `verify` returns false and the packet is dropped. -/
def FailsClosed (P : Primitives Name) (s : RouterPipeline Name × Rng)
    (a : Arrival Name) : Prop :=
  s.1.security.verify P a.contentName a.hdr.ph a.hdr.rhc a.hdr.seqn a.hdr.hmac = false ∧
    (process P s a).1.decision = .dropTampering

variable {P : Primitives Name} {s : RouterPipeline Name × Rng} {a : Arrival Name}

/-- The two comparison sites agree. -/
theorem failsClosed_iff_ne : FailsClosed P s a ↔
    a.hdr.hmac ≠ s.1.security.computeHmac P a.contentName a.hdr.ph a.hdr.rhc
      a.hdr.seqn := by
  constructor
  · rintro ⟨hfalse, -⟩ heq
    rw [SecurityEngine.verify_eq_true_iff.mpr heq] at hfalse
    cases hfalse
  · intro hne
    have hfalse : s.1.verifyHmac P a.contentName a.hdr = false := by
      rw [← Bool.not_eq_true, verifyHmac_eq_true_iff]
      exact hne
    constructor
    · rw [← Bool.not_eq_true, SecurityEngine.verify_eq_true_iff]
      exact hne
    · rw [decision_process, if_pos hfalse]

theorem mismatched_iff {tag : UInt32} {digest : Option (List UInt8)} :
    Mismatched tag digest ↔ tag ≠ SecurityEngine.truncate digest := by
  by_cases hbad : SecurityEngine.Unusable digest
  · rw [SecurityEngine.truncate_of_unusable hbad]
    constructor
    · exact fun h => h.1 hbad
    · intro hne
      refine ⟨fun _ => hne, ?_⟩
      rintro out rfl hlen
      exact absurd hbad (Nat.not_lt.mpr hlen)
  · obtain ⟨out, rfl⟩ : ∃ out, digest = some out := by
      cases digest with
      | none => exact absurd trivial hbad
      | some out => exact ⟨out, rfl⟩
    have htag : SecurityEngine.truncate (some out) = tag ↔
        Bytes.bytes32 tag = out.take 4 := SecurityEngine.truncate_eq_iff hbad
    constructor
    · rintro ⟨-, h⟩ heq
      exact h out rfl (Nat.not_lt.mp hbad) (htag.mp heq.symm)
    · intro hne
      refine ⟨fun h => absurd h hbad, ?_⟩
      rintro out' heq - hbytes
      rw [← Option.some.inj heq] at hbytes
      exact hne (htag.mpr hbytes).symm

/-- **When checking fails closed.** Where there is no usable MAC, both callers
refuse the packet exactly when its tag is mismatched. -/
theorem failsClosed_iff (P : Primitives Name) (s : RouterPipeline Name × Rng)
    (a : Arrival Name) :
    (NoUsableMac P s.1 a → FailsClosed P s a) ↔
      (NoUsableMac P s.1 a → Mismatched a.hdr.hmac (s.1.digest P a)) := by
  refine imp_congr_right fun _ => ?_
  rw [failsClosed_iff_ne, mismatched_iff]
  rfl

/-- **Failing open.** The key is empty, HMAC returns null, and the packet carries
the tag 0: both callers take it for authentic. -/
theorem empty_key_accepts_zero :
    ¬ ∀ (P : Primitives (List UInt8)) (s : RouterPipeline (List UInt8) × Rng)
      (a : Arrival (List UInt8)), NoUsableMac P s.1 a → FailsClosed P s a := by
  intro hclaim
  have hfails := hclaim samplePrimitives
    (.new 1 [] 10000 100 (1 / 2) 10, Stream'.const 1)
    (sampleArrival ⟨0, 0, 1, 0⟩) (Or.inl rfl)
  exact Bool.false_ne_true (hfails.1.symm.trans (by decide +kernel))

end RouterPipeline
end CaccSecure
