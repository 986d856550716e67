import CaccSecure.Lib.Bytes
import CaccSecure.Lib.Tlv

/-!
# The TLV header

The header class of `cacc-header`: four fields, six bytes of value under type
240, and a cached wire block. `wireDecode` stores the block and runs
`Block::parse` on it before it reads the value as raw bytes, so that a value is
decoded only if it happens to be a sequence of complete elements.
-/

namespace CaccSecure

/-- `ndn::Block`: a type and a value, and the bytes that encode them if the block
has a wire. A received block has one, of any form that a reader takes; a block made
from a type and a value has none. -/
structure Block extends Tlv.Element where
  wire : Option (List UInt8)
  reads : ∀ bytes ∈ wire, Tlv.readElement bytes = some (toElement, [])

namespace Block

def hasWire (b : Block) : Bool := b.wire.isSome

/-- The default constructor, and what `reset` leaves. -/
def empty : Block := ⟨⟨0, []⟩, none, by simp⟩

/-- The block of an encoded element. -/
def ofWire (bytes : List UInt8) (e : Tlv.Element)
    (h : Tlv.readElement bytes = some (e, [])) : Block :=
  ⟨e, some bytes, by simpa using h⟩

variable {b : Block} {e : Tlv.Element} {bytes : List UInt8}

theorem wire_of_hasWire_eq_false (h : b.hasWire = false) : b.wire = none :=
  Option.isNone_iff_eq_none.mp (Option.isSome_eq_false_iff.mp h)

theorem wire_of_hasWire (h : b.hasWire = true) : ∃ bytes, b.wire = some bytes :=
  Option.isSome_iff_exists.mp h

/-- The wire decides the type and the value. -/
theorem toElement_of_wire (h : b.wire = some bytes)
    (hread : Tlv.readElement bytes = some (e, [])) : b.toElement = e := by
  have hown := b.reads bytes h
  rw [hread] at hown
  exact (congrArg Prod.fst (Option.some.inj hown)).symm

end Block

/-- The part of ndn-cxx that the header uses. An encoder prepends bytes to a
buffer and returns how many; `block` is the block of a finished buffer; `parse`
is `Block::parse` on a value, with the text of the error that it throws. -/
structure NdnCxx where
  prependByte : List UInt8 → UInt8 → ℕ × List UInt8
  prependVarNumber : List UInt8 → ℕ → ℕ × List UInt8
  block : List UInt8 → Block
  parse : List UInt8 → Except String Unit

/-- The documented behaviour of ndn-cxx: the usual encoding, and a parse that
throws unless the value is a sequence of complete elements. -/
structure NdnCxx.Documented (N : NdnCxx) : Prop where
  prependByte : ∀ buffer b, N.prependByte buffer b = (1, b :: buffer)
  prependVarNumber : ∀ buffer n, n < 2 ^ 64 →
    N.prependVarNumber buffer n =
      ((Tlv.varNumber n).length, Tlv.varNumber n ++ buffer)
  block : ∀ buffer e, Tlv.readElement buffer = some (e, []) →
    (N.block buffer).wire = some buffer
  parse : ∀ value, (N.parse value).isOk = true ↔ Tlv.Sequence value

/-- The class `CaccHeader` of `cacc-header`; `m_hmac` is kept below `2 ^ 24`. -/
structure TlvCaccHeader where
  ph : UInt8
  ohc : UInt8
  seq : UInt8
  hmac : UInt32
  wire : Block
  hmac_lt : hmac.toNat < 2 ^ 24

namespace TlvCaccHeader

abbrev tlvCaccHeader : ℕ := 240

/-- `hmacSignature & 0xFFFFFF`. -/
def clampHmac (hmacSignature : UInt32) : UInt32 := hmacSignature &&& 0xFFFFFF

theorem toNat_clampHmac (w : UInt32) : (clampHmac w).toNat = w.toNat % 2 ^ 24 := by
  have hmask : (0xFFFFFF : UInt32).toNat = 2 ^ 24 - 1 := rfl
  rw [clampHmac, UInt32.toNat_and, hmask, Nat.and_two_pow_sub_one_eq_mod]

theorem toNat_clampHmac_lt (w : UInt32) : (clampHmac w).toNat < 2 ^ 24 := by
  rw [toNat_clampHmac]
  exact Nat.mod_lt _ (by decide)

/-- The default constructor. -/
def new : TlvCaccHeader := ⟨0, 0, 0, 0, .empty, by decide⟩

/-- The constructor from the four fields. -/
def make (ph ohc seq : UInt8) (hmacSignature : UInt32) : TlvCaccHeader :=
  ⟨ph, ohc, seq, clampHmac hmacSignature, .empty, toNat_clampHmac_lt _⟩

def setPh (h : TlvCaccHeader) (ph : UInt8) : TlvCaccHeader :=
  { h with ph := ph, wire := .empty }

def setOhc (h : TlvCaccHeader) (ohc : UInt8) : TlvCaccHeader :=
  { h with ohc := ohc, wire := .empty }

def setSeq (h : TlvCaccHeader) (seq : UInt8) : TlvCaccHeader :=
  { h with seq := seq, wire := .empty }

def setHmac (h : TlvCaccHeader) (hmacSignature : UInt32) : TlvCaccHeader :=
  { h with
    hmac := clampHmac hmacSignature
    wire := .empty
    hmac_lt := toNat_clampHmac_lt _ }

/-- The template `wireEncode(encoder)`, from the last byte to the first. -/
def encode (N : NdnCxx) (h : TlvCaccHeader) (encoder : List UInt8) :
    ℕ × List UInt8 :=
  let (n₁, encoder) := N.prependByte encoder (h.hmac &&& 0xFF).toUInt8
  let (n₂, encoder) := N.prependByte encoder ((h.hmac >>> 8) &&& 0xFF).toUInt8
  let (n₃, encoder) := N.prependByte encoder ((h.hmac >>> 16) &&& 0xFF).toUInt8
  let (n₄, encoder) := N.prependByte encoder h.seq
  let (n₅, encoder) := N.prependByte encoder h.ohc
  let (n₆, encoder) := N.prependByte encoder h.ph
  let totalLength := n₁ + n₂ + n₃ + n₄ + n₅ + n₆
  let (n₇, encoder) := N.prependVarNumber encoder totalLength
  let (n₈, encoder) := N.prependVarNumber encoder tlvCaccHeader
  (totalLength + n₇ + n₈, encoder)

/-- The estimator of the source only sizes the buffer. -/
def wireEncode (N : NdnCxx) (h : TlvCaccHeader) : Block × TlvCaccHeader :=
  if h.wire.hasWire then (h.wire, h)
  else
    let wire := N.block (h.encode N []).2
    (wire, { h with wire := wire })

/-- The header that is left behind also when the call throws. -/
def wireDecode (N : NdnCxx) (h : TlvCaccHeader) (wire : Block) :
    Except String Unit × TlvCaccHeader :=
  if wire.type ≠ tlvCaccHeader then
    (.error "Unexpected TLV Type encountered during CaccHeader parsing", h)
  else
    let h := { h with wire := wire }
    match N.parse wire.value with
    | .error e => (.error e, h)
    | .ok () =>
        match wire.value with
        | [b₀, b₁, b₂, b₃, b₄, b₅] =>
            (.ok (), { h with
              ph := b₀
              ohc := b₁
              seq := b₂
              hmac := Bytes.be24 b₃ b₄ b₅
              hmac_lt := Bytes.toNat_be24_lt b₃ b₄ b₅ })
        | _ => (.error
            "Malformed block length: CaccHeader stream must occupy exactly 6 bytes", h)

/-- The six bytes of the fields. -/
def fieldBytes (h : TlvCaccHeader) : List UInt8 :=
  [h.ph, h.ohc, h.seq] ++ Bytes.bytes24 h.hmac

/-- The bytes of the fields behind their type and their length. -/
def fieldWire (h : TlvCaccHeader) : List UInt8 := 240 :: 6 :: h.fieldBytes

/-- The header has no cached wire but an encoding of its fields. -/
def Clean (h : TlvCaccHeader) : Prop :=
  h.wire.hasWire = true → h.wire.toElement = ⟨tlvCaccHeader, h.fieldBytes⟩

/-- Decoding the encoding of `h` into a fresh header succeeds and gives back
the four fields. -/
def RoundTrips (N : NdnCxx) (h : TlvCaccHeader) : Prop :=
  let (result, fresh) := new.wireDecode N (h.wireEncode N).1
  result.isOk = true ∧ fresh.ph = h.ph ∧ fresh.ohc = h.ohc ∧ fresh.seq = h.seq ∧
    fresh.hmac = h.hmac

variable {N : NdnCxx} {h : TlvCaccHeader} {wire : Block}

@[simp] theorem length_fieldBytes (h : TlvCaccHeader) : h.fieldBytes.length = 6 := rfl

/-- What the encoder writes. -/
theorem encode_eq (hN : N.Documented) (h : TlvCaccHeader) :
    (h.encode N []).2 = h.fieldWire := by
  have hlength : ∀ buffer, N.prependVarNumber buffer (1 + 1 + 1 + 1 + 1 + 1) =
      ((Tlv.varNumber 6).length, Tlv.varNumber 6 ++ buffer) :=
    fun buffer => hN.prependVarNumber buffer 6 (by decide)
  have htype : ∀ buffer, N.prependVarNumber buffer tlvCaccHeader =
      ((Tlv.varNumber 240).length, Tlv.varNumber 240 ++ buffer) :=
    fun buffer => hN.prependVarNumber buffer 240 (by decide)
  simp only [encode, hN.prependByte, hlength, htype]
  rfl

/-- The encoder writes the element of type 240 with the six bytes. -/
theorem readElement_fieldWire (h : TlvCaccHeader) :
    Tlv.readElement h.fieldWire = some (⟨tlvCaccHeader, h.fieldBytes⟩, []) := by
  have hpos : 0 < tlvCaccHeader := by decide
  have hlt : tlvCaccHeader < 2 ^ 32 := by decide
  have hlen : h.fieldBytes.length < 2 ^ 64 := by
    rw [length_fieldBytes]
    decide
  have hread := Tlv.readElement_encode (e := ⟨tlvCaccHeader, h.fieldBytes⟩)
    hpos hlt hlen []
  rw [List.append_nil] at hread
  exact hread

/-- **The bytes that are sent.** The wire of the cached block, or without one the
encoding of the fields. -/
theorem wire_wireEncode (hN : N.Documented) (h : TlvCaccHeader) :
    (h.wireEncode N).1.wire = some (h.wire.wire.getD h.fieldWire) := by
  unfold wireEncode
  split_ifs with hcached
  · obtain ⟨bytes, hbytes⟩ := Block.wire_of_hasWire hcached
    rw [hbytes]
    rfl
  · rw [Bool.not_eq_true] at hcached
    rw [Block.wire_of_hasWire_eq_false hcached, encode_eq hN]
    exact hN.block _ _ h.readElement_fieldWire

theorem wireEncode_of_hasWire (hcached : h.wire.hasWire = true) :
    (h.wireEncode N).1 = h.wire := by
  rw [wireEncode, if_pos hcached]

/-- Without a cached wire, the element of the six bytes. -/
theorem wireEncode_toElement (hN : N.Documented) (hcached : h.wire.hasWire = false) :
    (h.wireEncode N).1.toElement = ⟨tlvCaccHeader, h.fieldBytes⟩ := by
  have hwire := wire_wireEncode hN h
  rw [Block.wire_of_hasWire_eq_false hcached] at hwire
  exact Block.toElement_of_wire hwire h.readElement_fieldWire

theorem clean_of_hasWire_eq_false (hcached : h.wire.hasWire = false) : h.Clean := by
  intro hwire
  rw [hcached] at hwire
  cases hwire

/-- A header is clean exactly when it encodes to the element of its fields. -/
theorem clean_iff (hN : N.Documented) :
    h.Clean ↔ (h.wireEncode N).1.toElement = ⟨tlvCaccHeader, h.fieldBytes⟩ := by
  cases hcached : h.wire.hasWire with
  | false =>
      exact iff_of_true (clean_of_hasWire_eq_false hcached)
        (wireEncode_toElement hN hcached)
  | true =>
      rw [wireEncode_of_hasWire hcached]
      exact ⟨fun hclean => hclean hcached, fun heq _ => heq⟩

/-! ## What is decoded -/

theorem wireDecode_of_type_ne (htype : wire.type ≠ tlvCaccHeader) :
    (h.wireDecode N wire).1.isOk = false := by
  rw [wireDecode, if_pos htype]
  rfl

theorem wireDecode_of_not_parsed (hparse : (N.parse wire.value).isOk = false) :
    (h.wireDecode N wire).1.isOk = false := by
  unfold wireDecode
  split_ifs
  · rfl
  · cases hp : N.parse wire.value with
    | error e => rfl
    | ok u =>
        rw [hp] at hparse
        cases hparse

theorem wireDecode_of_length_ne (hlen : wire.value.length ≠ 6) :
    (h.wireDecode N wire).1.isOk = false := by
  unfold wireDecode
  split_ifs
  · rfl
  · cases N.parse wire.value with
    | error e => rfl
    | ok u =>
        simp only
        split
        · rename_i hvalue
          rw [hvalue] at hlen
          exact absurd rfl hlen
        · rfl

theorem exists_six {l : List UInt8} (hl : l.length = 6) :
    ∃ b₀ b₁ b₂ b₃ b₄ b₅, l = [b₀, b₁, b₂, b₃, b₄, b₅] := by
  match l, hl with
  | [b₀, b₁, b₂, b₃, b₄, b₅], _ => exact ⟨b₀, b₁, b₂, b₃, b₄, b₅, rfl⟩

/-- A successful call, and the header it leaves. -/
theorem wireDecode_of_six (htype : wire.type = tlvCaccHeader)
    (hparse : (N.parse wire.value).isOk = true) {b₀ b₁ b₂ b₃ b₄ b₅ : UInt8}
    (hvalue : wire.value = [b₀, b₁, b₂, b₃, b₄, b₅]) :
    h.wireDecode N wire = (.ok (),
      ⟨b₀, b₁, b₂, Bytes.be24 b₃ b₄ b₅, wire, Bytes.toNat_be24_lt b₃ b₄ b₅⟩) := by
  cases hp : N.parse wire.value with
  | error e =>
      rw [hp] at hparse
      cases hparse
  | ok u =>
      have htype' : ¬ wire.type ≠ tlvCaccHeader := not_not.mpr htype
      rw [wireDecode, if_neg htype']
      simp only [hp]
      split
      · rename_i hvalue'
        rw [hvalue] at hvalue'
        cases hvalue'
        rfl
      · rename_i hne
        exact absurd hvalue (hne b₀ b₁ b₂ b₃ b₄ b₅)

/-- **What is accepted.** A block of type 240 whose value is six bytes and a
sequence of complete elements. -/
theorem isOk_wireDecode (hN : N.Documented) : (h.wireDecode N wire).1.isOk = true ↔
    wire.type = tlvCaccHeader ∧ wire.value.length = 6 ∧ Tlv.Sequence wire.value := by
  rw [← hN.parse]
  constructor
  · intro hok
    refine ⟨?_, ?_, ?_⟩
    · by_contra htype
      rw [wireDecode_of_type_ne htype] at hok
      cases hok
    · by_contra hlen
      rw [wireDecode_of_length_ne hlen] at hok
      cases hok
    · by_contra hparse
      rw [Bool.not_eq_true] at hparse
      rw [wireDecode_of_not_parsed hparse] at hok
      cases hok
  · rintro ⟨htype, hlen, hparse⟩
    obtain ⟨b₀, b₁, b₂, b₃, b₄, b₅, hvalue⟩ := exists_six hlen
    rw [wireDecode_of_six htype hparse hvalue]
    rfl

/-- The fields decoded from a block are those of `h` exactly when its value is
the six bytes of `h`. -/
theorem decoded_iff {b₀ b₁ b₂ b₃ b₄ b₅ : UInt8} :
    (b₀ = h.ph ∧ b₁ = h.ohc ∧ b₂ = h.seq ∧ Bytes.be24 b₃ b₄ b₅ = h.hmac) ↔
      [b₀, b₁, b₂, b₃, b₄, b₅] = h.fieldBytes := by
  rw [Bytes.be24_eq_iff h.hmac_lt, fieldBytes]
  constructor
  · rintro ⟨rfl, rfl, rfl, hbytes⟩
    rw [hbytes]
    rfl
  · intro heq
    simp only [List.cons_append, List.nil_append, List.cons.injEq] at heq
    obtain ⟨hph, hohc, hseq, hbytes⟩ := heq
    exact ⟨hph, hohc, hseq, hbytes.symm⟩

/-- A header round-trips over a block exactly when this has the type and the six
bytes of the header, and these are a sequence of complete elements. -/
theorem wireDecode_iff (hN : N.Documented) (wire : Block) :
    ((new.wireDecode N wire).1.isOk = true ∧ (new.wireDecode N wire).2.ph = h.ph ∧
      (new.wireDecode N wire).2.ohc = h.ohc ∧ (new.wireDecode N wire).2.seq = h.seq ∧
      (new.wireDecode N wire).2.hmac = h.hmac) ↔
    wire.toElement = ⟨tlvCaccHeader, h.fieldBytes⟩ ∧
      Tlv.Sequence h.fieldBytes := by
  constructor
  · rintro ⟨hok, hfields⟩
    obtain ⟨htype, hlen, hseq⟩ := (isOk_wireDecode hN).mp hok
    obtain ⟨b₀, b₁, b₂, b₃, b₄, b₅, hvalue⟩ := exists_six hlen
    rw [wireDecode_of_six htype ((hN.parse _).mpr hseq) hvalue] at hfields
    have hbytes := decoded_iff.mp hfields
    rw [← hbytes, ← hvalue, ← htype]
    exact ⟨rfl, hseq⟩
  · rintro ⟨heq, hseq⟩
    have htype : wire.type = tlvCaccHeader := congrArg Tlv.Element.type heq
    have hbytes : wire.value = h.fieldBytes := congrArg Tlv.Element.value heq
    obtain ⟨b₀, b₁, b₂, b₃, b₄, b₅, hvalue⟩ := exists_six (length_fieldBytes h)
    rw [← hbytes] at hseq hvalue
    rw [wireDecode_of_six htype ((hN.parse _).mpr hseq) hvalue]
    exact ⟨rfl, decoded_iff.mpr (hvalue.symm.trans hbytes)⟩

/-- **When the codec meets its specification.** A header round-trips exactly
when it has no other cached wire and its six bytes are a sequence of complete
elements. A block is accepted exactly when its type is 240 and its value six
bytes long, unless it has that shape and its value is no such sequence. -/
theorem roundTrips_iff (N : NdnCxx) (hN : N.Documented) :
    (∀ h : TlvCaccHeader, RoundTrips N h ↔ h.Clean ∧ Tlv.Sequence h.fieldBytes) ∧
    ∀ (h : TlvCaccHeader) (wire : Block),
      (((h.wireDecode N wire).1.isOk = true ↔
          wire.type = tlvCaccHeader ∧ wire.value.length = 6) ↔
        (wire.type = tlvCaccHeader → wire.value.length = 6 →
          Tlv.Sequence wire.value)) := by
  constructor
  · intro h
    rw [clean_iff hN]
    exact wireDecode_iff hN (h.wireEncode N).1
  · intro h wire
    rw [isOk_wireDecode hN]
    constructor
    · exact fun hiff htype hlen => (hiff.mpr ⟨htype, hlen⟩).2.2
    · intro hseq
      constructor
      · exact fun hok => ⟨hok.1, hok.2.1⟩
      · exact fun hshape => ⟨hshape.1, hshape.2, hseq hshape.1 hshape.2⟩

/-! ## A concrete ndn-cxx -/

/-- The documented behaviour as functions. -/
def sampleNdnCxx : NdnCxx where
  prependByte := fun buffer b => (1, b :: buffer)
  prependVarNumber := fun buffer n =>
    ((Tlv.varNumber n).length, Tlv.varNumber n ++ buffer)
  block := fun buffer =>
    match h : Tlv.readElement buffer with
    | some (e, []) => .ofWire buffer e h
    | _ => .empty
  parse := fun value =>
    if (Tlv.parse value).isSome then .ok ()
    else .error "TLV-LENGTH of sub-element exceeds TLV-VALUE boundary of parent block"

theorem documented_sampleNdnCxx : sampleNdnCxx.Documented where
  prependByte _ _ := rfl
  prependVarNumber _ _ _ := rfl
  block buffer e h := by
    simp only [sampleNdnCxx]
    split
    · rfl
    · rename_i hne
      exact absurd h (hne e)
  parse value := by
    rw [← Tlv.parse_isSome_iff]
    simp only [sampleNdnCxx]
    split_ifs with h <;> simp [h, Except.isOk, Except.toBool]

/-- The bytes 45, 4, 12, 0xAA, 0xBB, 0xCC are one element of type 45. -/
theorem roundTrips_iff_sample :
    RoundTrips sampleNdnCxx (make 45 4 12 0xAABBCC) :=
  ((roundTrips_iff sampleNdnCxx documented_sampleNdnCxx).1 _).mpr
    ⟨clean_of_hasWire_eq_false rfl, by decide +kernel⟩

/-- **Not every header decodes.** With PH 0 the value starts with the invalid
type 0, and `Block::parse` throws. -/
theorem zero_ph_not_decoded :
    ¬ ∀ N : NdnCxx, N.Documented →
      (∀ ph ohc seq hmac, RoundTrips N (make ph ohc seq hmac)) ∧
      ∀ (h : TlvCaccHeader) (wire : Block), (h.wireDecode N wire).1.isOk = true ↔
        wire.type = tlvCaccHeader ∧ wire.value.length = 6 := by
  intro hclaim
  have hok := ((hclaim sampleNdnCxx documented_sampleNdnCxx).1 0 0 1 0xAABBCC).1
  exact absurd hok (by decide +kernel)

end TlvCaccHeader
end CaccSecure
