import CaccSecure.TlvVerification

/-!
# The cached wire

`m_wire` is filled by `wireEncode` and `wireDecode` and reset by the setters. It
holds the encoding of the fields after every order of these calls, as long as no
decode throws: a decode that throws may already have stored its block.
-/

namespace CaccSecure
namespace TlvCaccHeader

/-- The headers that the constructors, the setters, `wireEncode` and the calls
of `wireDecode` that return can leave behind. -/
inductive Reachable (N : NdnCxx) : TlvCaccHeader → Prop
  | new : Reachable N TlvCaccHeader.new
  | make (ph ohc seq : UInt8) (hmacSignature : UInt32) :
      Reachable N (TlvCaccHeader.make ph ohc seq hmacSignature)
  | apply {h : TlvCaccHeader} (x : Setter) : Reachable N h → Reachable N (h.apply x)
  | wireEncode {h : TlvCaccHeader} : Reachable N h → Reachable N (h.wireEncode N).2
  | wireDecode {h : TlvCaccHeader} {wire : Block} : Reachable N h →
      (h.wireDecode N wire).1.isOk = true → Reachable N (h.wireDecode N wire).2

/-- The getters and the bytes that a following `wireEncode` returns are as on `h`. -/
structure Intact (N : NdnCxx) (h h' : TlvCaccHeader) : Prop where
  ph : h'.ph = h.ph
  ohc : h'.ohc = h.ohc
  seq : h'.seq = h.seq
  hmac : h'.hmac = h.hmac
  encoding : (h'.wireEncode N).1.wire = (h.wireEncode N).1.wire

variable {N : NdnCxx} {h : TlvCaccHeader} {wire : Block}

/-- The call stores the block that it returns and changes no field. -/
theorem wireEncode_snd (N : NdnCxx) (h : TlvCaccHeader) :
    (h.wireEncode N).2 = { h with wire := (h.wireEncode N).1 } := by
  unfold wireEncode
  split_ifs <;> rfl

/-! ## Every order of calls -/

/-- A block that is decoded is the encoding of the fields it leaves. -/
theorem clean_wireDecode (hN : N.Documented)
    (hok : (h.wireDecode N wire).1.isOk = true) : (h.wireDecode N wire).2.Clean := by
  obtain ⟨htype, hlen, hseq⟩ := (isOk_wireDecode hN).mp hok
  obtain ⟨b₀, b₁, b₂, b₃, b₄, b₅, hvalue⟩ := exists_six hlen
  rw [wireDecode_of_six htype ((hN.parse _).mpr hseq) hvalue]
  intro _
  rw [← decoded_iff.mp ⟨rfl, rfl, rfl, rfl⟩, ← hvalue, ← htype]

/-- **Invariant.** No call that returns leaves a stale block. -/
theorem Reachable.clean (hN : N.Documented) (hr : Reachable N h) : h.Clean := by
  induction hr with
  | new => exact clean_of_hasWire_eq_false rfl
  | make ph ohc seq hmacSignature => exact clean_of_hasWire_eq_false rfl
  | apply x _ _ => cases x <;> exact clean_of_hasWire_eq_false rfl
  | @wireEncode h _ ih =>
      rw [wireEncode_snd]
      exact fun _ => (clean_iff hN).mp ih
  | wireDecode _ hok _ => exact clean_wireDecode hN hok

/-- **The cached wire never goes stale.** In any order of constructors, setters,
encodings and decodings that return, the tag stays below `2 ^ 24` and the next
block encoded has the type and the value of that of a fresh header with the same
fields. -/
theorem wireEncode_never_stale (N : NdnCxx) (hN : N.Documented) (h : TlvCaccHeader)
    (hr : Reachable N h) :
    h.hmac.toNat < 2 ^ 24 ∧
      (h.wireEncode N).1.type = 240 ∧
      (h.wireEncode N).1.value = [h.ph, h.ohc, h.seq, (h.hmac >>> 16).toUInt8,
        (h.hmac >>> 8).toUInt8, h.hmac.toUInt8] ∧
      (h.wireEncode N).1.toElement =
        ((make h.ph h.ohc h.seq h.hmac).wireEncode N).1.toElement := by
  have hfresh : (make h.ph h.ohc h.seq h.hmac).fieldBytes = h.fieldBytes := by
    have htag : (make h.ph h.ohc h.seq h.hmac).hmac = h.hmac :=
      clampHmac_eq_self_iff.mpr h.hmac_lt
    rw [fieldBytes, htag]
    rfl
  have hencoded := (clean_iff hN).mp (hr.clean hN)
  have hvalue : (h.wireEncode N).1.value = h.fieldBytes :=
    congrArg Tlv.Element.value hencoded
  refine ⟨h.hmac_lt, congrArg Tlv.Element.type hencoded, ?_, ?_⟩
  · rw [hvalue]
    simp only [fieldBytes, Bytes.bytes24, Bytes.toUInt8_and_ff, List.cons_append,
      List.nil_append]
  · rw [hencoded, wireEncode_toElement hN rfl, hfresh]

/-- A block whose length is written in three bytes. -/
def longBlock : Block :=
  .ofWire [240, 253, 0, 6, 45, 4, 12, 0xAA, 0xBB, 0xCC]
    ⟨240, [45, 4, 12, 0xAA, 0xBB, 0xCC]⟩ (by decide +kernel)

/-- A decoded header, encoded from the cache and after a setter. -/
theorem wireEncode_never_stale_sample :
    let h := (new.wireDecode sampleNdnCxx longBlock).2
    (h.wireEncode sampleNdnCxx).1.value = [45, 4, 12, 0xAA, 0xBB, 0xCC] ∧
      ((h.apply (.setSeq 13)).wireEncode sampleNdnCxx).1.value =
        [45, 4, 13, 0xAA, 0xBB, 0xCC] :=
  have hr : Reachable sampleNdnCxx (new.wireDecode sampleNdnCxx longBlock).2 :=
    .wireDecode .new (by decide +kernel)
  ⟨(wireEncode_never_stale sampleNdnCxx documented_sampleNdnCxx _ hr).2.2.1,
    (wireEncode_never_stale sampleNdnCxx documented_sampleNdnCxx _
      (.apply (.setSeq 13) hr)).2.2.1⟩

/-! ## A decode that throws -/

/-- A call that throws leaves the fields, and stores the block if its type is
that of the header. -/
theorem wireDecode_snd_of_not_ok (hfail : (h.wireDecode N wire).1.isOk = false) :
    (h.wireDecode N wire).2 =
      if wire.type ≠ tlvCaccHeader then h else { h with wire := wire } := by
  unfold wireDecode at hfail ⊢
  split_ifs at hfail ⊢
  · rfl
  · cases hparse : N.parse wire.value with
    | error e => rfl
    | ok u =>
        rw [hparse] at hfail
        simp only at hfail ⊢
        split at hfail
        · cases hfail
        · rfl

/-- **What a failed decode leaves intact.** The fields always; the bytes that are
sent exactly when the block has another type, or when what is sent from it is what
was sent before: the wire of the block, or that of the block cached before, each
replaced by the encoding of the fields where there is no wire. -/
theorem failed_decode_intact_iff (N : NdnCxx) (hN : N.Documented) (h : TlvCaccHeader)
    (wire : Block) (hfail : (h.wireDecode N wire).1.isOk = false) :
    Intact N h (h.wireDecode N wire).2 ↔
      wire.type ≠ 240 ∨ wire.wire.getD h.fieldWire = h.wire.wire.getD h.fieldWire := by
  rw [wireDecode_snd_of_not_ok hfail]
  by_cases htype : wire.type = tlvCaccHeader
  · rw [if_neg (not_not.mpr htype)]
    have hstored :
        (({ h with wire := wire } : TlvCaccHeader).wireEncode N).1.wire =
          some (wire.wire.getD h.fieldWire) := wire_wireEncode hN _
    have hbefore := wire_wireEncode hN h
    constructor
    · intro hintact
      have hencoding := hintact.encoding
      rw [hstored, hbefore] at hencoding
      exact Or.inr (Option.some.inj hencoding)
    · rintro (hne | heq)
      · exact absurd htype hne
      · refine ⟨rfl, rfl, rfl, rfl, ?_⟩
        rw [hstored, hbefore, heq]
  · rw [if_pos htype]
    exact iff_of_true ⟨rfl, rfl, rfl, rfl, rfl⟩ (Or.inl htype)

/-- The header's own encoding, which the parse rejects because PH is 0; and a block
without a wire. -/
theorem failed_decode_intact_iff_sample :
    Intact sampleNdnCxx (make 0 0 1 0xAABBCC)
        ((make 0 0 1 0xAABBCC).wireDecode sampleNdnCxx
          (.ofWire [240, 6, 0, 0, 1, 0xAA, 0xBB, 0xCC]
            ⟨240, [0, 0, 1, 0xAA, 0xBB, 0xCC]⟩ (by decide +kernel))).2 ∧
      Intact sampleNdnCxx (make 1 2 3 4)
        ((make 1 2 3 4).wireDecode sampleNdnCxx ⟨⟨240, [0]⟩, none, by simp⟩).2 :=
  ⟨(failed_decode_intact_iff sampleNdnCxx documented_sampleNdnCxx _ _
      (by decide +kernel)).mpr (Or.inr (by decide +kernel)),
    (failed_decode_intact_iff sampleNdnCxx documented_sampleNdnCxx _ _
      (by decide +kernel)).mpr (Or.inr (by decide +kernel))⟩

/-- **A rejected block is sent on.** Its value is the single byte 0, which
`Block::parse` rejects; the next `wireEncode` returns it. -/
theorem failed_decode_leaves_block :
    ¬ ∀ N : NdnCxx, N.Documented → ∀ (h : TlvCaccHeader) (wire : Block),
      (h.wireDecode N wire).1.isOk = false → Intact N h (h.wireDecode N wire).2 := by
  intro hclaim
  have hintact := hclaim sampleNdnCxx documented_sampleNdnCxx (make 1 2 3 4)
    (.ofWire [240, 1, 0] ⟨240, [0]⟩ (by decide +kernel)) (by decide +kernel)
  exact absurd hintact.encoding (by decide +kernel)

/-- The value of the header itself, with its length in three bytes, is sent on too. -/
example :
    let h := make 0 0 1 0xAABBCC
    let bytes := [240, 253, 0, 6, 0, 0, 1, 0xAA, 0xBB, 0xCC]
    let wire : Block := .ofWire bytes ⟨240, h.fieldBytes⟩ (by decide +kernel)
    (h.wireDecode sampleNdnCxx wire).1.isOk = false ∧
      ((h.wireDecode sampleNdnCxx wire).2.wireEncode sampleNdnCxx).1.wire = some bytes ∧
      (h.wireEncode sampleNdnCxx).1.wire = some [240, 6, 0, 0, 1, 0xAA, 0xBB, 0xCC] := by
  decide +kernel

end TlvCaccHeader
end CaccSecure
