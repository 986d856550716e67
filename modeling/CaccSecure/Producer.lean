import CaccSecure.RouterPipeline

/-!
# Algorithms 6 and 7: producers and cache responses

The producer numbers the headers of each content name from its own counter. A
cache numbers its response after the SEQN of the packet it has cached. Both
counters are 8 bits wide and wrap.
-/

namespace CaccSecure

/-- `static_cast<uint8_t>((x + 1) & 0xFF)`. -/
def succ8 (x : UInt8) : UInt8 := ((x.toUInt32 + 1) &&& 0xFF).toUInt8

theorem toNat_succ8 (x : UInt8) : (succ8 x).toNat = (x.toNat + 1) % 256 := by
  have hmask : (0xFF : ℕ) = 2 ^ 8 - 1 := rfl
  have hlt := x.toNat_lt
  have hsum : (x.toUInt32 + 1).toNat = x.toNat + 1 := by
    rw [UInt32.toNat_add, UInt8.toNat_toUInt32]
    have hone : (1 : UInt32).toNat = 1 := rfl
    omega
  have hff : (0xFF : UInt32).toNat = 0xFF := rfl
  rw [succ8, UInt32.toNat_toUInt8, UInt32.toNat_and, hsum, hff, hmask,
    Nat.and_two_pow_sub_one_eq_mod, Nat.mod_mod]

theorem succ8_ofNat (k : ℕ) : succ8 (UInt8.ofNat k) = UInt8.ofNat (k + 1) := by
  apply UInt8.toNat_inj.mp
  rw [toNat_succ8, UInt8.toNat_ofNat', UInt8.toNat_ofNat']
  omega

/-- The successor of a SEQN is always fresh after it. -/
theorem fresh_succ8 (x : UInt8) : SeqCache.Fresh x (succ8 x) := by
  have hlt := x.toNat_lt
  rw [SeqCache.Fresh, toNat_succ8, Circular.Newer, Circular.fwd]
  omega

structure Producer (Name : Type) [DecidableEq Name] where
  security : SecurityEngine
  globalSeqn : Finmap (fun _ : Name => UInt8)

namespace Producer

variable {Name : Type} [DecidableEq Name]

/-- The constructor. -/
def new (hmacKey : List UInt8) : Producer Name := ⟨⟨hmacKey⟩, ∅⟩

def currentSeqn (p : Producer Name) (contentName : Name) : UInt8 :=
  match p.globalSeqn.lookup contentName with
  | none => 0
  | some seqn => seqn

def nextSeqn (p : Producer Name) (contentName : Name) : UInt8 × Producer Name :=
  -- `m_globalSeqn[contentName]` is 0 for a new name
  let seqn := succ8 ((p.globalSeqn.lookup contentName).getD 0)
  (seqn, { p with globalSeqn := p.globalSeqn.insert contentName seqn })

def createHeader (P : Primitives Name) (p : Producer Name) (contentName : Name) :
    CaccHeader × Producer Name :=
  let ph := 0
  let rhc := 0
  let (seqn, p) := p.nextSeqn contentName
  let hmac := p.security.computeHmac P contentName ph rhc seqn
  (⟨ph, rhc, seqn, hmac⟩, p)

def reset (p : Producer Name) : Producer Name := { p with globalSeqn := ∅ }

end Producer

structure CacheResponse where
  security : SecurityEngine

namespace CacheResponse

variable {Name : Type}

/-- The constructor. -/
def new (hmacKey : List UInt8) : CacheResponse := ⟨⟨hmacKey⟩⟩

def updateHeader (P : Primitives Name) (r : CacheResponse) (contentName : Name)
    (cached : CaccHeader) : CaccHeader :=
  let ph := succ8 cached.ph
  let rhc := 0
  let seqn := succ8 cached.seqn
  let hmac := r.security.computeHmac P contentName ph rhc seqn
  ⟨ph, rhc, seqn, hmac⟩

end CacheResponse

/-! ## Authentic headers -/

section

variable {Name : Type}

/-- The header carries the tag of its fields under the key. -/
def Authentic (P : Primitives Name) (key : List UInt8) (n : Name)
    (hdr : CaccHeader) : Prop :=
  hdr.hmac = SecurityEngine.computeHmac P ⟨key⟩ n hdr.ph hdr.rhc hdr.seqn

instance decidableAuthentic (P : Primitives Name) (key : List UInt8) (n : Name)
    (hdr : CaccHeader) : Decidable (Authentic P key n hdr) :=
  inferInstanceAs (Decidable (_ = _))

/-- The header that Algorithm 6 issues with a given SEQN. -/
def issuedHeader (P : Primitives Name) (key : List UInt8) (n : Name)
    (seqn : UInt8) : CaccHeader :=
  ⟨0, 0, seqn, SecurityEngine.computeHmac P ⟨key⟩ n 0 0 seqn⟩

variable {P : Primitives Name} {key : List UInt8} {n : Name} {hdr : CaccHeader}
  {r : CacheResponse}

theorem authentic_issuedHeader (seqn : UInt8) :
    Authentic P key n (issuedHeader P key n seqn) := rfl

theorem CacheResponse.authentic_updateHeader (hkey : r.security = ⟨key⟩) :
    Authentic P key n (r.updateHeader P n hdr) := by
  simp only [updateHeader, hkey, Authentic]

@[simp] theorem CacheResponse.seqn_updateHeader :
    (r.updateHeader P n hdr).seqn = succ8 hdr.seqn := rfl

end

variable {Name : Type} [DecidableEq Name] {P : Primitives Name} {n m : Name}
  {key : List UInt8} {hdr : CaccHeader}

/-- A router with the key takes exactly the authentic headers for untampered. -/
theorem RouterPipeline.verifyHmac_iff_authentic {p : RouterPipeline Name}
    (hkey : p.security = ⟨key⟩) :
    p.verifyHmac P n hdr = true ↔ Authentic P key n hdr := by
  rw [RouterPipeline.verifyHmac_eq_true_iff, hkey]
  rfl

namespace RouterPipeline

variable {s : RouterPipeline Name × Rng} {a : Arrival Name}

/-- An authentic packet with a fresh SEQN passes. -/
theorem passes_of_authentic (hkey : s.1.security = ⟨key⟩)
    (hauth : Authentic P key a.contentName a.hdr)
    (hfresh : ∀ last, s.1.seqCache.lastSeqn a.contentName = some last →
      SeqCache.Fresh last a.hdr.seqn) : s.1.passes P a = true :=
  passes_eq_true_iff.mpr
    ⟨(verifyHmac_iff_authentic hkey).mpr hauth, SeqCache.validateSequence_fst.mpr hfresh⟩

/-- An authentic packet is dropped exactly when its SEQN is stale, as a replay. -/
theorem decision_of_authentic (hkey : s.1.security = ⟨key⟩)
    (hauth : Authentic P key a.contentName a.hdr) :
    (process P s a).1.decision ≠ .dropTampering ∧
      ((process P s a).1.decision = .dropReplay ↔
        ∃ last, s.1.seqCache.lastSeqn a.contentName = some last ∧
          ¬ SeqCache.Fresh last a.hdr.seqn) := by
  have hmac := (verifyHmac_iff_authentic hkey).mpr hauth
  have hstale : s.1.passes P a = false ↔
      ∃ last, s.1.seqCache.lastSeqn a.contentName = some last ∧
        ¬ SeqCache.Fresh last a.hdr.seqn := by
    rw [← Bool.not_eq_true, passes_eq_true_iff, SeqCache.validateSequence_fst]
    simp [hmac]
  rw [← hstale, decision_process]
  simp only [hmac, Bool.true_eq_false, if_false]
  constructor
  · split_ifs <;> simp
  · cases s.1.passes P a with
    | false => simp
    | true =>
        simp only [Bool.true_eq_false, if_false, iff_false]
        split_ifs <;> simp

end RouterPipeline

namespace Producer

variable {p : Producer Name}

@[simp] theorem currentSeqn_new (n : Name) :
    (new key : Producer Name).currentSeqn n = 0 := by
  simp [currentSeqn, new]

theorem currentSeqn_eq : p.currentSeqn n = (p.globalSeqn.lookup n).getD 0 := by
  unfold currentSeqn
  cases p.globalSeqn.lookup n <;> rfl

@[simp] theorem security_createHeader :
    (p.createHeader P n).2.security = p.security := rfl

theorem createHeader_fst (hkey : p.security = ⟨key⟩) :
    (p.createHeader P n).1 = issuedHeader P key n (succ8 (p.currentSeqn n)) := by
  simp only [createHeader, nextSeqn, hkey, issuedHeader, currentSeqn_eq]

theorem currentSeqn_createHeader_self :
    (p.createHeader P n).2.currentSeqn n = succ8 (p.currentSeqn n) := by
  rw [currentSeqn_eq, currentSeqn_eq]
  simp [createHeader, nextSeqn]

/-- Issuing a header for one name leaves the counter of another alone. -/
theorem currentSeqn_createHeader_of_ne (hne : m ≠ n) :
    (p.createHeader P n).2.currentSeqn m = p.currentSeqn m := by
  rw [currentSeqn_eq, currentSeqn_eq]
  simp [createHeader, nextSeqn, Finmap.lookup_insert_of_ne _ hne]

/-- The counters go on counting, modulo 256, if they have counted so far. -/
theorem currentSeqn_createHeader {count : Name → ℕ}
    (h : ∀ m, p.currentSeqn m = UInt8.ofNat (count m)) (n m : Name) :
    (p.createHeader P n).2.currentSeqn m =
      UInt8.ofNat (Function.update count n (count n + 1) m) := by
  by_cases hm : m = n
  · subst hm
    rw [currentSeqn_createHeader_self, h, succ8_ofNat, Function.update_self]
  · rw [currentSeqn_createHeader_of_ne hm, h, Function.update_of_ne hm]

end Producer
end CaccSecure
