import CaccSecure.Lib.Bytes
import CaccSecure.RouterPipeline

/-!
# The 7-byte header

`parse` and `serialize` of `RouterPipeline`: PH, RHC, SEQN, and the tag in four
bytes, most significant first. Both take a pointer, which may be null.
-/

namespace CaccSecure
namespace RouterPipeline

/-- A null header parses as zeroes. -/
def parse (rawHeader : Option (Vector UInt8 7)) : CaccHeader :=
  match rawHeader with
  | none => ⟨0, 0, 0, 0⟩
  | some raw =>
      ⟨raw[0], raw[1], raw[2], Bytes.be32 raw[3] raw[4] raw[5] raw[6]⟩

/-- The buffer after the call; nothing is written through a null pointer. -/
def serialize (hdr : CaccHeader) (out7 : Option (Vector UInt8 7)) :
    Option (Vector UInt8 7) :=
  match out7 with
  | none => none
  | some _ => some #v[hdr.ph, hdr.rhc, hdr.seqn,
      ((hdr.hmac >>> 24) &&& 0xFF).toUInt8, ((hdr.hmac >>> 16) &&& 0xFF).toUInt8,
      ((hdr.hmac >>> 8) &&& 0xFF).toUInt8, (hdr.hmac &&& 0xFF).toUInt8]

/-- What is written is read back. -/
theorem parse_serialize_some (hdr : CaccHeader) (out7 : Vector UInt8 7) :
    parse (serialize hdr (some out7)) = hdr := by
  have htag : Bytes.be32 ((hdr.hmac >>> 24) &&& 0xFF).toUInt8
      ((hdr.hmac >>> 16) &&& 0xFF).toUInt8 ((hdr.hmac >>> 8) &&& 0xFF).toUInt8
      (hdr.hmac &&& 0xFF).toUInt8 = hdr.hmac := by
    rw [Bytes.be32_eq_iff]
    simp only [Bytes.toUInt8_and_ff]
    rfl
  have hfields : parse (serialize hdr (some out7)) = ⟨hdr.ph, hdr.rhc, hdr.seqn,
      Bytes.be32 ((hdr.hmac >>> 24) &&& 0xFF).toUInt8
        ((hdr.hmac >>> 16) &&& 0xFF).toUInt8 ((hdr.hmac >>> 8) &&& 0xFF).toUInt8
        (hdr.hmac &&& 0xFF).toUInt8⟩ := by
    simp [parse, serialize]
  rw [hfields, htag]

/-- What is read is written back. -/
theorem serialize_parse_some (raw out7 : Vector UInt8 7) :
    serialize (parse (some raw)) (some out7) = some raw := by
  have htag : Bytes.bytes32 (Bytes.be32 raw[3] raw[4] raw[5] raw[6]) =
      [raw[3], raw[4], raw[5], raw[6]] := Bytes.be32_eq_iff.mp rfl
  simp only [Bytes.bytes32, List.cons.injEq, and_true] at htag
  obtain ⟨h₃, h₄, h₅, h₆⟩ := htag
  simp only [parse, serialize, Bytes.toUInt8_and_ff, h₃, h₄, h₅, h₆]
  congr 1
  ext i hi
  have hindex : i = 0 ∨ i = 1 ∨ i = 2 ∨ i = 3 ∨ i = 4 ∨ i = 5 ∨ i = 6 := by omega
  rcases hindex with rfl | rfl | rfl | rfl | rfl | rfl | rfl <;> rfl

/-- The header bytes after routers that parse them and write them out again,
each into a buffer of its own. -/
def relay (rawHeader : Option (Vector UInt8 7)) (buffers : List (Vector UInt8 7)) :
    Option (Vector UInt8 7) :=
  buffers.foldl (fun raw out7 => serialize (parse raw) (some out7)) rawHeader

theorem relay_some (raw : Vector UInt8 7) (buffers : List (Vector UInt8 7)) :
    relay (some raw) buffers = some raw := by
  induction buffers with
  | nil => rfl
  | cons out7 buffers ih =>
      rw [relay, List.foldl_cons, serialize_parse_some]
      exact ih

theorem parse_relay_serialize (hdr : CaccHeader) (out7 : Vector UInt8 7)
    (buffers : List (Vector UInt8 7)) :
    parse (relay (serialize hdr (some out7)) buffers) = hdr := by
  have hhead := parse_serialize_some hdr out7
  rw [serialize] at hhead ⊢
  rw [relay_some, hhead]

/-- **The codec is a bijection.** Headers and strings of seven bytes determine
each other, so that a header survives any number of hops, with the same answer
of `verifyHmac` under any key at each of them. -/
theorem codec_bijective {Name : Type} [DecidableEq Name] (P : Primitives Name) :
    (∀ (hdr : CaccHeader) (out7 : Vector UInt8 7),
      parse (serialize hdr (some out7)) = hdr) ∧
    (∀ raw out7 : Vector UInt8 7,
      serialize (parse (some raw)) (some out7) = some raw) ∧
    (∀ (raw : Vector UInt8 7) (buffers : List (Vector UInt8 7)),
      relay (some raw) buffers = some raw) ∧
    ∀ (hdr : CaccHeader) (out7 : Vector UInt8 7) (buffers : List (Vector UInt8 7)),
      parse (relay (serialize hdr (some out7)) buffers) = hdr ∧
      ∀ (p : RouterPipeline Name) (contentName : Name),
        p.verifyHmac P contentName (parse (relay (serialize hdr (some out7)) buffers)) =
          p.verifyHmac P contentName hdr := by
  refine ⟨parse_serialize_some, serialize_parse_some, relay_some, ?_⟩
  intro hdr out7 buffers
  have hparse := parse_relay_serialize hdr out7 buffers
  refine ⟨hparse, ?_⟩
  intro p contentName
  rw [hparse]

end RouterPipeline
end CaccSecure
