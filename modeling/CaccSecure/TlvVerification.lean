import CaccSecure.HeaderCodec
import CaccSecure.TlvHeader

/-!
# Verifying the two header formats

The TLV header keeps the low three bytes of the tag, the 7-byte header all four.
`SecurityEngine::verify` compares four bytes, so that the fields of a TLV header
verify exactly when the top byte of the tag is zero.
-/

namespace CaccSecure
namespace TlvCaccHeader

/-- A call of a setter. -/
inductive Setter where
  | setPh (ph : UInt8)
  | setOhc (ohc : UInt8)
  | setSeq (seq : UInt8)
  | setHmac (hmacSignature : UInt32)

def apply (h : TlvCaccHeader) : Setter → TlvCaccHeader
  | .setPh ph => h.setPh ph
  | .setOhc ohc => h.setOhc ohc
  | .setSeq seq => h.setSeq seq
  | .setHmac hmacSignature => h.setHmac hmacSignature

/-- The setter stores the value that the header was built from. -/
def Setter.Restores (hdr : CaccHeader) : Setter → Prop
  | .setPh ph => ph = hdr.ph
  | .setOhc ohc => ohc = hdr.rhc
  | .setSeq seq => seq = hdr.seqn
  | .setHmac hmacSignature => hmacSignature = hdr.hmac

/-- The TLV header with the fields of a header. -/
def ofHeader (hdr : CaccHeader) : TlvCaccHeader :=
  make hdr.ph hdr.rhc hdr.seqn hdr.hmac

/-- `verify` on what the getters return. -/
def verify {Name : Type} (P : Primitives Name) (engine : SecurityEngine)
    (contentName : Name) (h : TlvCaccHeader) : Bool :=
  engine.verify P contentName h.ph h.ohc h.seq h.hmac

/-- The header has the fields of `hdr`, with the tag cut to three bytes. -/
structure Carries (h : TlvCaccHeader) (hdr : CaccHeader) : Prop where
  ph : h.ph = hdr.ph
  ohc : h.ohc = hdr.rhc
  seq : h.seq = hdr.seqn
  hmac : h.hmac = clampHmac hdr.hmac

variable {h : TlvCaccHeader} {hdr : CaccHeader} {x : Setter} {w : UInt32}

theorem carries_ofHeader (hdr : CaccHeader) : (ofHeader hdr).Carries hdr :=
  ⟨rfl, rfl, rfl, rfl⟩

theorem Carries.apply (hc : h.Carries hdr) (hx : x.Restores hdr) :
    (h.apply x).Carries hdr := by
  cases x with
  | setPh ph => exact { hc with ph := hx }
  | setOhc ohc => exact { hc with ohc := hx }
  | setSeq seq => exact { hc with seq := hx }
  | setHmac hmacSignature => exact { hc with hmac := congrArg clampHmac hx }

/-- Setters that store the same values change nothing. -/
theorem carries_foldl {setters : List Setter} (hset : ∀ x ∈ setters, x.Restores hdr) :
    (setters.foldl apply (ofHeader hdr)).Carries hdr := by
  induction setters using List.reverseRecOn with
  | nil => exact carries_ofHeader hdr
  | append_singleton setters x ih =>
      rw [List.foldl_append]
      apply Carries.apply
      · exact ih fun y hy => hset y (List.mem_append_left _ hy)
      · exact hset x (List.mem_append_right _ (List.mem_singleton_self x))

/-- The clamp keeps exactly the tags of three bytes. -/
theorem clampHmac_eq_self_iff : clampHmac w = w ↔ w.toNat < 2 ^ 24 := by
  rw [← UInt32.toNat_inj, toNat_clampHmac]
  constructor
  · intro heq
    rw [← heq]
    exact Nat.mod_lt _ (by decide)
  · exact Nat.mod_eq_of_lt

section

variable {Name : Type} {P : Primitives Name} {engine : SecurityEngine} {n : Name}

theorem Carries.verify_eq_true_iff (hc : h.Carries hdr) : h.verify P engine n = true ↔
    clampHmac hdr.hmac = engine.computeHmac P n hdr.ph hdr.rhc hdr.seqn := by
  rw [verify, SecurityEngine.verify_eq_true_iff, hc.ph, hc.ohc, hc.seq, hc.hmac]

end

/-- **What the TLV header verifies.** For every MAC and every fields, after any
setters that store the same values, the header with the computed tag verifies
exactly when the tag fits three bytes. The two formats agree on a header
exactly when its tag fits three bytes, or neither it nor its low three bytes
are the computed tag. -/
theorem verify_iff {Name : Type} [DecidableEq Name] (P : Primitives Name)
    (engine : SecurityEngine) (n : Name) (hdr : CaccHeader) (setters : List Setter)
    (hset : ∀ x ∈ setters, x.Restores hdr) :
    let m := engine.computeHmac P n hdr.ph hdr.rhc hdr.seqn
    let h := setters.foldl apply (ofHeader hdr)
    (hdr.hmac = m → (h.verify P engine n = true ↔ m.toNat < 2 ^ 24)) ∧
    ∀ (p : RouterPipeline Name) (out7 : Vector UInt8 7), p.security = engine →
      (h.verify P engine n = p.verifyHmac P n (RouterPipeline.parse
          (RouterPipeline.serialize hdr (some out7))) ↔
        hdr.hmac.toNat < 2 ^ 24 ∨ (hdr.hmac ≠ m ∧ clampHmac hdr.hmac ≠ m)) := by
  intro m h
  have hverify : h.verify P engine n = true ↔ clampHmac hdr.hmac = m :=
    (carries_foldl hset).verify_eq_true_iff
  constructor
  · intro hm
    rw [hverify, hm, clampHmac_eq_self_iff]
  · intro p out7 hkey
    have hseven : p.verifyHmac P n (RouterPipeline.parse
        (RouterPipeline.serialize hdr (some out7))) = true ↔ hdr.hmac = m := by
      rw [RouterPipeline.parse_serialize_some, RouterPipeline.verifyHmac_eq_true_iff, hkey]
    rw [Bool.eq_iff_iff, hverify, hseven, ← clampHmac_eq_self_iff]
    constructor
    · intro hiff
      by_cases hm : hdr.hmac = m
      · exact Or.inl ((hiff.mpr hm).trans hm.symm)
      · exact Or.inr ⟨hm, mt hiff.mp hm⟩
    · rintro (hfits | ⟨hne, hne'⟩)
      · rw [hfits]
      · exact ⟨fun heq => absurd heq hne', fun heq => absurd heq hne⟩

/-- A tag of three bytes: both formats give the same answer. -/
theorem verify_iff_sample :
    let p : RouterPipeline (List UInt8) := .new 1 sampleKey 1000 10 (3 / 5) 20
    ((ofHeader ⟨0, 0, 1, 0xAABBCC⟩).apply (.setHmac 0xAABBCC)).verify samplePrimitives
        ⟨sampleKey⟩ sampleName =
      p.verifyHmac samplePrimitives sampleName (RouterPipeline.parse
        (RouterPipeline.serialize ⟨0, 0, 1, 0xAABBCC⟩ (some (.replicate 7 0)))) := by
  have hset : ∀ x ∈ [Setter.setHmac 0xAABBCC], x.Restores ⟨0, 0, 1, 0xAABBCC⟩ := by
    intro x hx
    rw [List.mem_singleton.mp hx]
    rfl
  exact ((verify_iff samplePrimitives ⟨sampleKey⟩ sampleName ⟨0, 0, 1, 0xAABBCC⟩ _
    hset).2 _ _ rfl).mpr (Or.inl (by decide))

/-- **Four bytes do not fit.** The header of the first packet of the sample name
has the tag 0x998036A9, and its TLV header does not verify. -/
theorem wide_tag_not_verified :
    ¬ ∀ (P : Primitives (List UInt8)) (engine : SecurityEngine) (n : List UInt8)
        (ph rhc seqn : UInt8),
      (ofHeader ⟨ph, rhc, seqn, engine.computeHmac P n ph rhc seqn⟩).verify P engine n =
        true := by
  intro hclaim
  have hverify := hclaim samplePrimitives ⟨sampleKey⟩ sampleName 0 0 1
  exact absurd hverify (by decide +kernel)

end TlvCaccHeader
end CaccSecure
