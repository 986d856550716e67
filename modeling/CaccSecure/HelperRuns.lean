import CaccSecure.Helper
import CaccSecure.Lib.Machine

/-!
# Runs of the helper

A script sets attributes, installs pipelines and then lets packets through the
pipelines that `GetPipeline` points to. The pipeline of a node is built once, from
the attributes set before its first installation. No later call of the helper
replaces it, so it never loses what it has learned from its packets.
-/

namespace CaccSecure
namespace CaccSecureHelper

variable {Name : Type} [DecidableEq Name]

def installAll (h : CaccSecureHelper Name) (nodes : List UInt32) : CaccSecureHelper Name :=
  nodes.foldl install h

def hasPipeline (h : CaccSecureHelper Name) (nodeId : UInt32) : Bool :=
  nodeId ∈ h.pipelines

/-- A call of the helper, or a packet for the pipeline that `GetPipeline` returns,
with what the random generator yields next. -/
inductive Op (Name : Type) where
  | setAttribute (name : String) (value : AttributeValue)
  | install (nodeId : UInt32)
  | installAll (nodes : List UInt32)
  | process (nodeId : UInt32) (a : Arrival Name) (rng : Rng)

def perform (P : Primitives Name) (h : CaccSecureHelper Name) :
    Op Name → Option Outcome × CaccSecureHelper Name
  | .setAttribute name value => (none, h.setAttribute name value)
  | .install n => (none, h.install n)
  | .installAll nodes => (none, h.installAll nodes)
  | .process n a rng =>
      match h.getPipeline n with
      -- the caller has a null pointer
      | none => (none, h)
      | some p =>
          let r := RouterPipeline.process P (p, rng) a
          (some r.1, { h with pipelines := h.pipelines.insert n r.2.1 })

/-- The operation installs a pipeline on the node, unless it has one. -/
def Op.installs (n : UInt32) : Op Name → Bool
  | .install m => m = n
  | .installAll nodes => n ∈ nodes
  | _ => false

/-- The attributes that the operations set, in order. -/
def attributesOf (ops : List (Op Name)) : List (String × AttributeValue) :=
  ops.filterMap fun
    | .setAttribute name value => some (name, value)
    | _ => none

/-- What an operation does to the pipeline of a node that has one. -/
def Op.onPipeline (P : Primitives Name) (n : UInt32) (p : RouterPipeline Name) :
    Op Name → RouterPipeline Name
  | .process m a rng => if m = n then (RouterPipeline.process P (p, rng) a).2.1 else p
  | _ => p

/-- The attributes that `CreatePipeline` reads. -/
def attributeNames : List String :=
  ["MaxTrackedEntries", "MaxRatePerWindow", "Alpha", "MaxHops"]

/-- The operation sets no attribute that `CreatePipeline` does not read. -/
def Op.relevant : Op Name → Bool
  | .setAttribute name _ => name ∈ attributeNames
  | _ => true

variable {P : Primitives Name} {h h' : CaccSecureHelper Name} {n m : UInt32}
  {key : List UInt8}

/-! ## One operation -/

theorem hasPipeline_eq : h.hasPipeline n = (h.getPipeline n).isSome := by
  rw [hasPipeline, getPipeline, Bool.eq_iff_iff, decide_eq_true_iff, Finmap.lookup_isSome]

theorem getPipeline_eq_none_iff : h.getPipeline n = none ↔ n ∉ h.pipelines :=
  Finmap.lookup_eq_none

theorem createPipeline_install : (h.install m).createPipeline n = h.createPipeline n := by
  rw [install]
  split_ifs <;> rfl

theorem getPipeline_install_eq : (h.install m).getPipeline n =
    if m = n then some ((h.getPipeline n).getD (h.createPipeline n))
    else h.getPipeline n := by
  rw [install]
  by_cases hmem : m ∈ h.pipelines
  · rw [if_pos hmem]
    split_ifs with hn
    · subst hn
      obtain ⟨p, hp⟩ := Finmap.mem_iff.mp hmem
      rw [getPipeline, hp, Option.getD_some]
    · rfl
  · rw [if_neg hmem]
    split_ifs with hn
    · subst hn
      rw [getPipeline_eq_none_iff.mpr hmem, Option.getD_none]
      exact Finmap.lookup_insert _
    · exact Finmap.lookup_insert_of_ne _ (Ne.symm hn)

theorem getPipeline_installAll (nodes : List UInt32) :
    (h.installAll nodes).getPipeline n =
      if n ∈ nodes then some ((h.getPipeline n).getD (h.createPipeline n))
      else h.getPipeline n := by
  induction nodes generalizing h with
  | nil => rfl
  | cons m nodes ih =>
      show ((h.install m).installAll nodes).getPipeline n = _
      rw [ih, createPipeline_install, getPipeline_install_eq]
      by_cases hm : m = n
      · simp [hm]
      · rw [if_neg hm]
        simp [Ne.symm hm]

/-- **Step.** A pipeline is built when it is first installed, and from then on only
its own packets change it. -/
theorem getPipeline_perform (op : Op Name) : (perform P h op).2.getPipeline n =
    match h.getPipeline n with
    | some p => some (op.onPipeline P n p)
    | none => if op.installs n then some (h.createPipeline n) else none := by
  cases op with
  | setAttribute name value =>
      show h.getPipeline n = _
      cases h.getPipeline n <;> rfl
  | install m =>
      show (h.install m).getPipeline n = _
      rw [getPipeline_install_eq]
      cases h.getPipeline n <;> simp [Op.installs, Op.onPipeline]
  | installAll nodes =>
      show (h.installAll nodes).getPipeline n = _
      rw [getPipeline_installAll]
      cases h.getPipeline n <;> simp [Op.installs, Op.onPipeline]
  | process m a rng =>
      rw [perform]
      cases hm : h.getPipeline m with
      | none =>
          show h.getPipeline n = _
          cases hn : h.getPipeline n with
          | none => rfl
          | some p =>
              have hne : m ≠ n := by
                rintro rfl
                cases hm.symm.trans hn
              simp only [Op.onPipeline, if_neg hne]
      | some p =>
          show (h.pipelines.insert m _).lookup n = _
          by_cases hmn : m = n
          · subst hmn
            rw [hm, Finmap.lookup_insert]
            simp only [Op.onPipeline, if_true]
          · rw [Finmap.lookup_insert_of_ne _ (Ne.symm hmn)]
            show h.getPipeline n = _
            cases h.getPipeline n with
            | none => rfl
            | some p => simp only [Op.onPipeline, if_neg hmn]

/-! ## The settings -/

/-- Two helpers build the same pipelines. -/
structure SameSettings (h h' : CaccSecureHelper Name) : Prop where
  hmacKey : h.hmacKey = h'.hmacKey
  lookup : ∀ name ∈ attributeNames, h.attributes.lookup name = h'.attributes.lookup name

theorem SameSettings.createPipeline (hs : SameSettings h h') :
    h.createPipeline n = h'.createPipeline n := by
  have huint : ∀ name ∈ attributeNames, ∀ out,
      h.readUint name out = h'.readUint name out := by
    intro name hname out
    unfold readUint
    rw [hs.lookup name hname]
  have hdouble : ∀ out, h.readDouble "Alpha" out = h'.readDouble "Alpha" out := by
    intro out
    unfold readDouble
    rw [hs.lookup "Alpha" (by decide)]
  unfold CaccSecureHelper.createPipeline
  simp only [hs.hmacKey, hdouble, huint "MaxTrackedEntries" (by decide),
    huint "MaxRatePerWindow" (by decide), huint "MaxHops" (by decide)]

/-- Equal settings stay equal under the same attribute. -/
theorem SameSettings.setAttribute (hs : SameSettings h h') (name : String)
    (value : AttributeValue) :
    SameSettings (h.setAttribute name value) (h'.setAttribute name value) := by
  refine ⟨hs.hmacKey, ?_⟩
  intro other hother
  show (h.attributes.insert name value).lookup other =
    (h'.attributes.insert name value).lookup other
  by_cases hne : other = name
  · subst hne
    rw [Finmap.lookup_insert, Finmap.lookup_insert]
  · rw [Finmap.lookup_insert_of_ne _ hne, Finmap.lookup_insert_of_ne _ hne]
    exact hs.lookup other hother

/-- An attribute that `CreatePipeline` does not read leaves them equal. -/
theorem SameSettings.setAttribute_left (hs : SameSettings h h') {name : String}
    (hname : name ∉ attributeNames) (value : AttributeValue) :
    SameSettings (h.setAttribute name value) h' := by
  refine ⟨hs.hmacKey, ?_⟩
  intro other hother
  have hne : other ≠ name := by
    rintro rfl
    exact hname hother
  show (h.attributes.insert name value).lookup other = _
  rw [Finmap.lookup_insert_of_ne _ hne]
  exact hs.lookup other hother

theorem settings_install : (h.install m).hmacKey = h.hmacKey ∧
    (h.install m).attributes = h.attributes := by
  rw [install]
  split_ifs <;> exact ⟨rfl, rfl⟩

theorem settings_installAll (nodes : List UInt32) :
    (h.installAll nodes).hmacKey = h.hmacKey ∧
      (h.installAll nodes).attributes = h.attributes := by
  induction nodes generalizing h with
  | nil => exact ⟨rfl, rfl⟩
  | cons m nodes ih =>
      rcases settings_install (h := h) (m := m) with ⟨hkey, hattributes⟩
      rcases ih (h := h.install m) with ⟨hkeys, hall⟩
      exact ⟨hkeys.trans hkey, hall.trans hattributes⟩

/-- Only `SetAttribute` changes the settings. -/
theorem settings_perform {op : Op Name}
    (hop : ∀ name value, op ≠ .setAttribute name value) :
    (perform P h op).2.hmacKey = h.hmacKey ∧
      (perform P h op).2.attributes = h.attributes := by
  cases op with
  | setAttribute name value => exact absurd rfl (hop name value)
  | install m => exact settings_install
  | installAll nodes => exact settings_installAll nodes
  | process m a rng =>
      rw [perform]
      split <;> exact ⟨rfl, rfl⟩

theorem sameSettings_of_eq (hkey : h'.hmacKey = h.hmacKey)
    (hattributes : h'.attributes = h.attributes) : SameSettings h' h :=
  ⟨hkey, fun name _ => by rw [hattributes]⟩

/-- The attributes of a run are those that `SetAttribute` has stored. -/
theorem settings_final (P : Primitives Name) (key : List UInt8) (ops : List (Op Name)) :
    (Machine.final (perform P) (new key) ops).hmacKey = key ∧
      (Machine.final (perform P) (new key) ops).attributes =
        (configured key (attributesOf ops) : CaccSecureHelper Name).attributes := by
  induction ops using List.reverseRecOn with
  | nil => exact ⟨rfl, rfl⟩
  | append_singleton ops op ih =>
      rcases ih with ⟨hkey, hattributes⟩
      rw [Machine.final_concat, attributesOf, List.filterMap_append]
      by_cases hop : ∀ name value, op ≠ .setAttribute name value
      · have hnone : attributesOf [op] = [] := by
          cases op with
          | setAttribute name value => exact absurd rfl (hop name value)
          | _ => rfl
        rcases settings_perform (P := P) (h := Machine.final (perform P) (new key) ops) hop
          with ⟨hkey', hattributes'⟩
        refine ⟨hkey'.trans hkey, hattributes'.trans ?_⟩
        rw [← attributesOf, ← attributesOf, hnone, List.append_nil]
        exact hattributes
      · push Not at hop
        obtain ⟨name, value, rfl⟩ := hop
        refine ⟨hkey, ?_⟩
        show (Machine.final (perform P) (new key) ops).attributes.insert name value = _
        rw [hattributes, configured, configured, List.foldl_append]
        rfl

/-! ## Runs -/

theorem getPipeline_new (key : List UInt8) (n : UInt32) :
    (new key : CaccSecureHelper Name).getPipeline n = none :=
  Finmap.lookup_empty n

/-- Without an installation there is no pipeline. -/
theorem getPipeline_final_of_not_installs {ops : List (Op Name)}
    (hops : ∀ op ∈ ops, op.installs n = false) (hnone : h.getPipeline n = none) :
    (Machine.final (perform P) h ops).getPipeline n = none := by
  induction ops generalizing h with
  | nil => exact hnone
  | cons op ops ih =>
      rcases List.forall_mem_cons.mp hops with ⟨hop, hrest⟩
      apply ih hrest
      rw [getPipeline_perform, hnone]
      simp only [hop, Bool.false_eq_true, if_false]

/-- An installed pipeline stays, whatever the helper does. -/
theorem getPipeline_final {p : RouterPipeline Name} (hp : h.getPipeline n = some p)
    (ops : List (Op Name)) : (Machine.final (perform P) h ops).getPipeline n =
      some (ops.foldl (Op.onPipeline P n) p) := by
  induction ops generalizing h p with
  | nil => exact hp
  | cons op ops ih =>
      apply ih
      rw [getPipeline_perform, hp]

omit [DecidableEq Name] in
/-- The first installation of a node. -/
theorem exists_first_installs {ops : List (Op Name)} (hops : ∃ op ∈ ops, op.installs n) :
    ∃ before op after, ops = before ++ op :: after ∧ op.installs n ∧
      ∀ o ∈ before, o.installs n = false := by
  obtain ⟨op, hmem, hop⟩ := hops
  obtain ⟨first, before, after, hbefore, hfirst, hsplit, -⟩ :=
    List.exists_of_eraseP (p := Op.installs n) hmem hop
  refine ⟨before, first, after, hsplit, hfirst, ?_⟩
  intro o ho
  exact Bool.eq_false_iff.mpr (hbefore o ho)

theorem getPipeline_final_split {before after : List (Op Name)} {op : Op Name}
    (hop : op.installs n = true) (hbefore : ∀ o ∈ before, o.installs n = false) :
    (Machine.final (perform P) (new key) (before ++ op :: after)).getPipeline n =
      some (after.foldl (Op.onPipeline P n)
        ((configured key (attributesOf before)).createPipeline n)) := by
  have hnone := getPipeline_final_of_not_installs (P := P) hbefore (getPipeline_new key n)
  rcases settings_final P key before with ⟨hkey, hattributes⟩
  have hsettings : SameSettings (Machine.final (perform P) (new key) before)
      (configured key (attributesOf before)) :=
    sameSettings_of_eq (hkey.trans hmacKey_configured.symm) hattributes
  rw [Machine.final_append]
  show (Machine.final (perform P) (perform P _ op).2 after).getPipeline n = _
  apply getPipeline_final
  rw [getPipeline_perform, hnone]
  simp only [hop, if_true]
  rw [hsettings.createPipeline]

theorem hasPipeline_final_iff (key : List UInt8) (ops : List (Op Name)) (n : UInt32) :
    (Machine.final (perform P) (new key) ops).hasPipeline n = true ↔
      ∃ op ∈ ops, op.installs n = true := by
  rw [hasPipeline_eq]
  constructor
  · intro hsome
    by_contra hno
    push Not at hno
    have hnone := getPipeline_final_of_not_installs (P := P)
      (fun op hop => Bool.eq_false_iff.mpr (hno op hop)) (getPipeline_new key n)
    rw [hnone] at hsome
    cases hsome
  · intro hops
    obtain ⟨before, op, after, rfl, hop, hbefore⟩ := exists_first_installs hops
    rw [getPipeline_final_split hop hbefore]
    rfl

/-- Helpers that build and hold the same pipelines. -/
structure Alike (h h' : CaccSecureHelper Name) : Prop extends SameSettings h h' where
  pipelines : h.pipelines = h'.pipelines

theorem Alike.install (hs : Alike h h') : Alike (h.install m) (h'.install m) := by
  unfold CaccSecureHelper.install
  rw [← hs.pipelines]
  split_ifs with hm
  · exact hs
  · refine ⟨⟨hs.hmacKey, hs.lookup⟩, ?_⟩
    show h.pipelines.insert m _ = h.pipelines.insert m _
    rw [hs.createPipeline]

theorem Alike.installAll (nodes : List UInt32) (hs : Alike h h') :
    Alike (h.installAll nodes) (h'.installAll nodes) := by
  induction nodes generalizing h h' with
  | nil => exact hs
  | cons m nodes ih => exact ih hs.install

/-- They stay alike and answer alike. -/
theorem Alike.perform (hs : Alike h h') (op : Op Name) :
    Alike (perform P h op).2 (perform P h' op).2 ∧
      (perform P h op).1 = (perform P h' op).1 := by
  cases op with
  | setAttribute name value =>
      exact ⟨⟨hs.toSameSettings.setAttribute name value, hs.pipelines⟩, rfl⟩
  | install m => exact ⟨hs.install, rfl⟩
  | installAll nodes => exact ⟨hs.installAll nodes, rfl⟩
  | process m a rng =>
      have hget : h.getPipeline m = h'.getPipeline m := by
        rw [getPipeline, getPipeline, hs.pipelines]
      unfold CaccSecureHelper.perform
      simp only [hget]
      cases h'.getPipeline m with
      | none => exact ⟨hs, rfl⟩
      | some p =>
          refine ⟨⟨⟨hs.hmacKey, hs.lookup⟩, ?_⟩, rfl⟩
          show h.pipelines.insert m _ = h'.pipelines.insert m _
          rw [hs.pipelines]

/-- An attribute that `CreatePipeline` does not read leaves them alike. -/
theorem Alike.step_of_irrelevant (hs : Alike h h') {op : Op Name}
    (hop : op.relevant = false) : Alike (CaccSecureHelper.perform P h op).2 h' := by
  cases op with
  | setAttribute name value =>
      have hname : name ∉ attributeNames := of_decide_eq_false hop
      exact ⟨hs.toSameSettings.setAttribute_left hname value, hs.pipelines⟩
  | install m => cases hop
  | installAll nodes => cases hop
  | process m a rng => cases hop

/-- A run without the attributes that are not read has the same outcomes, and ends alike. -/
theorem Alike.erase (hs : Alike h h') (ops : List (Op Name)) :
    List.Forall₂ (fun e f => e.out = f.out)
        ((Machine.trace (CaccSecureHelper.perform P) h ops).filter fun e => e.inp.relevant)
        (Machine.trace (CaccSecureHelper.perform P) h' (ops.filter Op.relevant)) ∧
      Alike (Machine.final (CaccSecureHelper.perform P) h ops)
        (Machine.final (CaccSecureHelper.perform P) h' (ops.filter Op.relevant)) := by
  refine Machine.forall₂_trace_filter Op.relevant hs ?_ fun h h' op hs => hs.perform op
  intro e he hinp h' hs
  have hpost : (CaccSecureHelper.perform P e.pre e.inp).2 = e.post :=
    congrArg Prod.snd (Machine.step_of_mem_trace he)
  rw [← hpost]
  exact hs.step_of_irrelevant hinp

/-- **Runs of the helper.** After any calls of the helper, with packets in between:
a node has a pipeline exactly when some call installed one; that pipeline is the one
built from the attributes set before the first such call, as its own packets have
left it since; and a run without the attributes that `CreatePipeline` does not read
gives every packet the same outcome and every node the same pipeline. -/
theorem pipelines_persist (P : Primitives Name) (key : List UInt8) (ops : List (Op Name)) :
    (∀ n, (Machine.final (perform P) (new key) ops).hasPipeline n = true ↔
      ∃ op ∈ ops, op.installs n = true) ∧
    (∀ n before op after, ops = before ++ op :: after → op.installs n = true →
      (∀ o ∈ before, o.installs n = false) →
        (Machine.final (perform P) (new key) ops).getPipeline n =
          some (after.foldl (Op.onPipeline P n)
            ((configured key (attributesOf before)).createPipeline n))) ∧
    (((Machine.trace (perform P) (new key) ops).filter fun e => e.inp.relevant).map
        Machine.Event.out =
      (Machine.trace (perform P) (new key) (ops.filter Op.relevant)).map Machine.Event.out ∧
    (Machine.final (perform P) (new key) (ops.filter Op.relevant)).pipelines =
      (Machine.final (perform P) (new key) ops).pipelines) := by
  refine ⟨hasPipeline_final_iff key ops, ?_, ?_⟩
  · rintro n before op after rfl hop hbefore
    exact getPipeline_final_split hop hbefore
  · have halike : Alike (new key : CaccSecureHelper Name) (new key) :=
      ⟨⟨rfl, fun _ _ => rfl⟩, rfl⟩
    obtain ⟨hevents, hend⟩ := halike.erase (P := P) ops
    refine ⟨?_, hend.pipelines.symm⟩
    rw [← List.forall₂_eq_eq_eq, List.forall₂_map_left_iff, List.forall₂_map_right_iff]
    exact hevents

/-- Two nodes, and an attribute that comes too late for both. -/
theorem pipelines_persist_sample :
    (Machine.final (perform samplePrimitives) (new sampleKey)
        [.setAttribute "MaxHops" (.uinteger 8), .installAll [1, 2],
          .setAttribute "MaxHops" (.uinteger 30), .install 2,
          .process 2 (sampleArrival (sampleHeader 0 0 1)) (Stream'.const 1),
          .install 3]).getPipeline 2 =
      some (RouterPipeline.process samplePrimitives
        ((configured sampleKey [("MaxHops", .uinteger 8)]).createPipeline 2,
          Stream'.const 1) (sampleArrival (sampleHeader 0 0 1))).2.1 :=
  (pipelines_persist samplePrimitives sampleKey _).2.1 2
    [.setAttribute "MaxHops" (.uinteger 8)] (.installAll [1, 2]) _ rfl
    (by simp [Op.installs]) (by simp [Op.installs])

end CaccSecureHelper
end CaccSecure
