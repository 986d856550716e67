import CaccSecure.Lib.Bytes

/-!
# Algorithm 1: HMAC integrity

`SecurityEngine` computes and checks the truncated HMAC over
`PH || RHC || SEQN || ContentName`. The name's URI and the HMAC primitive come
from ndn-cxx and OpenSSL and are parameters of the model.
-/

namespace CaccSecure

/-- The code outside the repository that Algorithm 1 calls: `Name::toUri`, and
OpenSSL's `HMAC` over SHA-256 from a key and a message to the digest it writes,
`none` when it returns null. -/
structure Primitives (Name : Type) where
  toUri : Name → List UInt8
  hmac : List UInt8 → List UInt8 → Option (List UInt8)

structure SecurityEngine where
  key : List UInt8
deriving DecidableEq

namespace SecurityEngine

variable {Name : Type}

/-- The message that is authenticated: `PH || RHC || SEQN || ContentName`. -/
def buffer (P : Primitives Name) (contentName : Name) (ph rhc seqn : UInt8) :
    List UInt8 :=
  [ph, rhc, seqn] ++ P.toUri contentName

/-- `Truncate(·, 4)`: the first four bytes of the digest, big-endian. A null
result and an output of fewer than four bytes both give the tag 0. -/
def truncate : Option (List UInt8) → UInt32
  | none => 0
  | some (b₀ :: b₁ :: b₂ :: b₃ :: _) => Bytes.be32 b₀ b₁ b₂ b₃
  | some _ => 0

def computeHmac (P : Primitives Name) (engine : SecurityEngine)
    (contentName : Name) (ph rhc seqn : UInt8) : UInt32 :=
  truncate (P.hmac engine.key (buffer P contentName ph rhc seqn))

def verify (P : Primitives Name) (engine : SecurityEngine) (contentName : Name)
    (ph rhc seqn : UInt8) (receivedHmac : UInt32) : Bool :=
  let computed := computeHmac P engine contentName ph rhc seqn
  if computed ≠ receivedHmac then false else true

theorem verify_eq_true_iff {P : Primitives Name} {engine : SecurityEngine}
    {n : Name} {ph rhc seqn : UInt8} {tag : UInt32} :
    verify P engine n ph rhc seqn tag = true ↔
      tag = computeHmac P engine n ph rhc seqn := by
  simp [verify, eq_comm]

/-- With `toUri` injective, the message determines the fields and the name. -/
theorem buffer_inj {P : Primitives Name} (hinj : Function.Injective P.toUri)
    {n n' : Name} {ph rhc seqn ph' rhc' seqn' : UInt8}
    (h : buffer P n ph rhc seqn = buffer P n' ph' rhc' seqn') :
    n = n' ∧ ph = ph' ∧ rhc = rhc' ∧ seqn = seqn' := by
  simp only [buffer, List.cons_append, List.nil_append, List.cons.injEq] at h
  obtain ⟨hph, hrhc, hseqn, huri⟩ := h
  exact ⟨hinj huri, hph, hrhc, hseqn⟩

/-! ## Truncation -/

/-- The digests that Algorithm 1 has no tag for. -/
def Unusable : Option (List UInt8) → Prop
  | none => True
  | some out => out.length < 4

theorem truncate_of_unusable {digest : Option (List UInt8)}
    (h : Unusable digest) : truncate digest = 0 := by
  match digest, h with
  | none, _ => rfl
  | some [], _ => rfl
  | some [_], _ => rfl
  | some [_, _], _ => rfl
  | some [_, _, _], _ => rfl
  | some (_ :: _ :: _ :: _ :: _), h =>
      simp only [Unusable, List.length_cons] at h
      omega

theorem truncate_eq_iff {out : List UInt8} {tag : UInt32}
    (h : ¬ Unusable (some out)) :
    truncate (some out) = tag ↔ Bytes.bytes32 tag = out.take 4 := by
  match out, h with
  | b₀ :: b₁ :: b₂ :: b₃ :: rest, _ =>
      rw [truncate, Bytes.be32_eq_iff]
      simp
  | [], h | [_], h | [_, _], h | [_, _, _], h => simp [Unusable] at h

end SecurityEngine

/-! ## Sample primitives

HMAC-SHA256 under the key of the simulation scripts for the name `/example`,
on the messages that the sample runs below authenticate. -/

def sampleKey : List UInt8 :=
  [48, 49, 50, 51, 52, 53, 54, 55, 56, 57, 97, 98, 99, 100, 101, 102]

def sampleName : List UInt8 := [47, 101, 120, 97, 109, 112, 108, 101]

def sampleDigest : List UInt8 → Option (List UInt8)
  | 0 :: 0 :: 0 :: _ => some
      [191, 114, 63, 125, 43, 6, 144, 198, 204, 1, 249, 114, 37, 91, 91, 138,
        19, 193, 205, 192, 83, 108, 221, 104, 44, 191, 76, 70, 27, 69, 36, 118]
  | 0 :: 0 :: 1 :: _ => some
      [153, 128, 54, 169, 116, 101, 120, 78, 158, 155, 60, 49, 99, 64, 37, 104,
        127, 104, 117, 207, 194, 50, 137, 245, 136, 213, 189, 204, 59, 190, 116,
        238]
  | 0 :: 0 :: 2 :: _ => some
      [80, 139, 224, 70, 239, 164, 149, 23, 121, 65, 14, 201, 169, 99, 195, 17,
        129, 101, 127, 199, 197, 168, 242, 107, 94, 178, 225, 58, 171, 178, 41,
        205]
  | 0 :: 0 :: 128 :: _ => some
      [232, 238, 71, 217, 78, 165, 79, 155, 150, 137, 80, 195, 118, 135, 215,
        230, 194, 112, 255, 132, 214, 40, 198, 158, 55, 93, 255, 41, 167, 95,
        166, 61]
  | 0 :: 0 :: 129 :: _ => some
      [72, 29, 193, 69, 39, 51, 197, 153, 140, 126, 134, 85, 175, 20, 229, 179,
        136, 131, 5, 32, 75, 211, 187, 26, 215, 250, 98, 61, 228, 198, 60, 193]
  | 0 :: 0 :: 130 :: _ => some
      [107, 244, 240, 91, 185, 35, 57, 89, 207, 11, 237, 153, 185, 63, 110, 181,
        191, 20, 193, 239, 232, 190, 139, 215, 43, 32, 133, 2, 174, 234, 93, 42]
  | 0 :: 4 :: 1 :: _ => some
      [63, 60, 243, 13, 164, 127, 144, 41, 122, 104, 188, 46, 211, 90, 247, 44,
        191, 241, 99, 228, 241, 29, 76, 104, 250, 115, 94, 209, 140, 153, 167,
        228]
  | 0 :: 8 :: 2 :: _ => some
      [154, 129, 194, 121, 193, 255, 60, 119, 217, 179, 74, 203, 92, 237, 239,
        92, 133, 31, 43, 132, 29, 168, 177, 141, 242, 66, 151, 71, 231, 25, 33,
        64]
  | 1 :: 0 :: 1 :: _ => some
      [23, 82, 96, 248, 234, 171, 148, 225, 173, 232, 236, 214, 56, 223, 80, 63,
        52, 235, 4, 201, 171, 72, 50, 110, 61, 211, 5, 51, 191, 155, 158, 92]
  | 1 :: 0 :: 2 :: _ => some
      [20, 124, 159, 195, 254, 113, 174, 241, 20, 33, 222, 152, 16, 193, 164,
        49, 93, 71, 242, 110, 148, 158, 47, 84, 124, 187, 149, 93, 59, 62, 230,
        77]
  | 1 :: 0 :: 128 :: _ => some
      [62, 80, 106, 80, 152, 192, 41, 124, 154, 250, 143, 172, 112, 137, 45, 29,
        84, 197, 143, 39, 96, 211, 45, 153, 237, 46, 137, 203, 169, 59, 128, 220]
  | 10 :: 0 :: 1 :: _ => some
      [124, 97, 199, 127, 49, 40, 221, 177, 2, 117, 69, 50, 132, 249, 160, 214,
        75, 136, 197, 132, 116, 181, 243, 20, 245, 243, 109, 155, 185, 189, 57,
        17]
  | 10 :: 0 :: 2 :: _ => some
      [83, 20, 35, 215, 99, 96, 148, 91, 247, 214, 9, 68, 100, 115, 26, 1, 204,
        93, 173, 233, 176, 197, 119, 205, 78, 138, 68, 110, 57, 59, 189, 250]
  | 50 :: 0 :: 1 :: _ => some
      [235, 126, 196, 181, 88, 19, 29, 140, 184, 156, 66, 172, 51, 237, 192,
        174, 137, 188, 25, 155, 184, 101, 197, 65, 91, 228, 136, 188, 44, 9, 3,
        61]
  | 50 :: 0 :: 2 :: _ => some
      [177, 2, 158, 82, 0, 153, 36, 129, 112, 246, 157, 235, 43, 48, 24, 246,
        38, 121, 9, 151, 33, 171, 214, 181, 155, 187, 185, 0, 166, 174, 134, 124]
  | _ => none

/-- Names are their URIs; digests are known for the sample name and key. -/
def samplePrimitives : Primitives (List UInt8) where
  toUri := id
  hmac := fun key msg =>
    if key = sampleKey ∧ msg.drop 3 = sampleName then sampleDigest msg else none

end CaccSecure
