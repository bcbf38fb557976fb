import Mathlib
import Powerful.ReconcileCalls
import Powerful.SpecWrites

/-! # What a reconciliation reports

The conditions of a status are a finite map from types to conditions (`condition?`), which
`setCondition` and `removeCondition` update at one type, as long as no two conditions have the same
type (`Typed`).

`Course` is what a reconciliation comes to, by the calls that it has made of the release manager: it
asks for nothing, or for the release to be uninstalled, or syncs and then asks for at most one of the
three actions.  A call that fails is the last one; its error is returned, and the last body that is
written reports it.  A success reports the release that the last call gave. -/

namespace Powerful.Helm

open Resumption

/-! ### Conditions by type -/

namespace HelmAppStatus

/-- The condition of a type. -/
def condition? (type : String) (s : HelmAppStatus) : Option HelmAppCondition :=
  s.conditions.find? fun d => d.type = type

/-- No two conditions have the same type. -/
def Typed (s : HelmAppStatus) : Prop := (s.conditions.map HelmAppCondition.type).Nodup

theorem condition?_updateStatusString (type : String) (s : HelmAppStatus) :
    condition? type s.updateStatusString = condition? type s := rfl

theorem typed_updateStatusString {s : HelmAppStatus} : s.updateStatusString.Typed ↔ s.Typed := Iff.rfl

theorem replaceCondition_types {now : Time} {c : HelmAppCondition} :
    ∀ {cs cs' : List HelmAppCondition}, replaceCondition now c cs = some cs' →
      cs'.map HelmAppCondition.type = cs.map HelmAppCondition.type
  | d :: ds, cs', h => by
      rw [replaceCondition] at h
      split at h
      · rename_i htype
        obtain rfl := Option.some.inj h
        rw [List.map_cons, List.map_cons, htype]
      · obtain ⟨ds', hds, rfl⟩ := Option.map_eq_some_iff.mp h
        rw [List.map_cons, List.map_cons, replaceCondition_types hds]

theorem replaceCondition_none {now : Time} {c : HelmAppCondition} :
    ∀ {cs : List HelmAppCondition}, replaceCondition now c cs = none → ∀ d ∈ cs, d.type ≠ c.type
  | [], _ => by simp
  | d :: ds, h => by
      rw [replaceCondition] at h
      split at h
      · cases h
      · rename_i htype
        exact List.forall_mem_cons.mpr ⟨htype, replaceCondition_none (Option.map_eq_none_iff.mp h)⟩

theorem find?_replaceCondition {now : Time} {c : HelmAppCondition} (type : String) :
    ∀ {cs cs' : List HelmAppCondition}, replaceCondition now c cs = some cs' →
      if type = c.type then
        ∃ time, cs'.find? (fun d => d.type = type) = some { c with lastTransitionTime := time }
      else cs'.find? (fun d => d.type = type) = cs.find? (fun d => d.type = type)
  | d :: ds, cs', h => by
      rw [replaceCondition] at h
      split at h
      · rename_i hd
        obtain rfl := Option.some.inj h
        split
        · rename_i htype
          exact ⟨_, List.find?_cons_of_pos (by simpa using htype.symm)⟩
        · rename_i htype
          rw [List.find?_cons_of_neg (by simpa using fun h => htype h.symm),
            List.find?_cons_of_neg (by simpa [hd] using fun h => htype h.symm)]
      · rename_i hd
        obtain ⟨ds', hds, rfl⟩ := Option.map_eq_some_iff.mp h
        have ih := find?_replaceCondition type hds
        split
        · rename_i htype
          rw [if_pos htype] at ih
          rwa [List.find?_cons_of_neg (by simpa [htype] using hd)]
        · rename_i htype
          rw [if_neg htype] at ih
          rw [List.find?_cons, List.find?_cons, ih]

theorem dropCondition_types {type : String} : ∀ {cs cs' : List HelmAppCondition},
    dropCondition type cs = some cs' →
      cs'.map HelmAppCondition.type = (cs.map HelmAppCondition.type).erase type
  | d :: ds, cs', h => by
      rw [dropCondition] at h
      split at h
      · rename_i hd
        obtain rfl := Option.some.inj h
        rw [List.map_cons, hd, List.erase_cons_head]
      · rename_i hd
        obtain ⟨ds', hds, rfl⟩ := Option.map_eq_some_iff.mp h
        rw [List.map_cons, List.map_cons, List.erase_cons_tail (by simpa using hd),
          dropCondition_types hds]

theorem dropCondition_none {type : String} : ∀ {cs : List HelmAppCondition},
    dropCondition type cs = none → ∀ d ∈ cs, d.type ≠ type
  | [], _ => by simp
  | d :: ds, h => by
      rw [dropCondition] at h
      split at h
      · cases h
      · rename_i hd
        exact List.forall_mem_cons.mpr ⟨hd, dropCondition_none (Option.map_eq_none_iff.mp h)⟩

theorem find?_dropCondition {type other : String} (h : other ≠ type) :
    ∀ {cs cs' : List HelmAppCondition}, dropCondition type cs = some cs' →
      cs'.find? (fun d => d.type = other) = cs.find? (fun d => d.type = other)
  | d :: ds, cs', hdrop => by
      rw [dropCondition] at hdrop
      split at hdrop
      · rename_i hd
        obtain rfl := Option.some.inj hdrop
        rw [List.find?_cons_of_neg (by simpa [hd] using h.symm)]
      · obtain ⟨ds', hds, rfl⟩ := Option.map_eq_some_iff.mp hdrop
        rw [List.find?_cons, List.find?_cons, find?_dropCondition h hds]

section operations
variable (s : HelmAppStatus) (now : Time) (c : HelmAppCondition) (type : String)

theorem condition?_setCondition_self :
    ∃ time, condition? c.type (s.setCondition now c) = some { c with lastTransitionTime := time } := by
  unfold setCondition
  split
  · rename_i cs hreplace
    have hfind := find?_replaceCondition c.type hreplace
    rwa [if_pos rfl] at hfind
  · rename_i hnone
    have hother : s.conditions.find? (fun d => d.type = c.type) = none := by
      simpa using replaceCondition_none hnone
    refine ⟨now, ?_⟩
    rw [condition?_updateStatusString, condition?, List.find?_append, hother]
    simp

theorem condition?_setCondition_ne {type : String} (h : type ≠ c.type) :
    condition? type (s.setCondition now c) = condition? type s := by
  unfold setCondition
  split
  · rename_i cs hreplace
    have hfind := find?_replaceCondition type hreplace
    rwa [if_neg h] at hfind
  · rw [condition?_updateStatusString, condition?, List.find?_append,
      List.find?_cons_of_neg (by simpa using h.symm)]
    simp [condition?]

theorem condition?_removeCondition_ne {type other : String} (h : other ≠ type) :
    condition? other (s.removeCondition type) = condition? other s := by
  unfold removeCondition
  split
  · rename_i cs hdrop
    exact find?_dropCondition h hdrop
  · rfl

variable {s}

theorem Typed.setCondition (h : s.Typed) : (s.setCondition now c).Typed := by
  unfold HelmAppStatus.setCondition
  split
  · rename_i cs hreplace
    rw [Typed, replaceCondition_types hreplace]
    exact h
  · rename_i hnone
    rw [typed_updateStatusString, Typed, List.map_append, List.nodup_append]
    refine ⟨h, by simp, ?_⟩
    simpa using replaceCondition_none hnone

theorem Typed.removeCondition (h : s.Typed) : (s.removeCondition type).Typed := by
  unfold HelmAppStatus.removeCondition
  split
  · rename_i cs hdrop
    rw [Typed, dropCondition_types hdrop]
    exact h.erase type
  · exact h

theorem Typed.condition?_removeCondition_self (h : s.Typed) :
    condition? type (s.removeCondition type) = none := by
  unfold HelmAppStatus.removeCondition
  split
  · rename_i cs hdrop
    have hmem : type ∉ cs.map HelmAppCondition.type := by
      rw [dropCondition_types hdrop]
      exact h.not_mem_erase
    simpa [condition?] using hmem
  · rename_i hnone
    rw [condition?_updateStatusString]
    simpa [condition?] using dropCondition_none hnone

end operations

end HelmAppStatus

variable {ω : Type}

/-! ### Reports -/

/-- The type and the reason of the condition that reports a failure. -/
def ManagerCall.failure : ManagerCall → String × String
  | .uninstallRelease => ("ReleaseFailed", "UninstallError")
  | .sync => ("Irreconcilable", "ReconcileError")
  | .installRelease => ("ReleaseFailed", "InstallError")
  | .updateRelease _ => ("ReleaseFailed", "UpdateError")
  | .reconcileRelease => ("Irreconcilable", "ReconcileError")

/-- The reason of the condition that reports a success, if there is one. -/
def ManagerCall.success : ManagerCall → Option String
  | .installRelease => some "InstallSuccessful"
  | .updateRelease _ => some "UpdateSuccessful"
  | _ => none

def ManagerCall.report (call : ManagerCall) (e : GoError) : HelmAppCondition where
  type := call.failure.1
  status := "True"
  reason := call.failure.2
  message := e.message

/-- The status reports the error of a call. -/
def Says (call : ManagerCall) (e : GoError) (st : HelmAppStatus) : Prop :=
  ∃ time, st.condition? call.failure.1 = some { call.report e with lastTransitionTime := time }

def Release.report (release : Release) (reason : String) : HelmAppCondition where
  type := "Deployed"
  status := "True"
  reason := reason
  message := release.notes.getD ""

/-- The status reports that the release is deployed. -/
def Announces (reason : String) (release : Release) (st : HelmAppStatus) : Prop :=
  ∃ time, st.condition? "Deployed" = some { release.report reason with lastTransitionTime := time }

/-- The status of the object that is read has one condition of a type. -/
def TypedRead (r : HelmOperatorReconciler ω) (req : Request) (w : ω) : Prop :=
  ∀ o w', r.client.get req w = (.ok o, w') → (r.statusFor ⟨o, none⟩).Typed

/-- The status reports no error. -/
structure Clean (st : HelmAppStatus) : Prop where
  typed : st.Typed
  released : st.condition? "ReleaseFailed" = none
  reconcilable : st.condition? "Irreconcilable" = none

/-- The status reports the release that a call gave, and no error if the one that was read is `typed`. -/
structure Reports (typed : Prop) (call : ManagerCall) (release : Release) (st : HelmAppStatus) :
    Prop where
  deployedRelease : st.deployedRelease = some ⟨release.name, release.manifest⟩
  announced : ∀ reason, call.success = some reason → Announces reason release st
  clean : typed → Clean st

theorem Clean.setCondition {st : HelmAppStatus} (h : Clean st) (now : Time) {c : HelmAppCondition}
    (hreleased : c.type ≠ "ReleaseFailed") (hreconcilable : c.type ≠ "Irreconcilable") :
    Clean (st.setCondition now c) where
  typed := h.typed.setCondition now c
  released := by rw [st.condition?_setCondition_ne now c hreleased.symm, h.released]
  reconcilable := by rw [st.condition?_setCondition_ne now c hreconcilable.symm, h.reconcilable]

theorem Clean.removeCondition {st : HelmAppStatus} (h : Clean st) (type : String) :
    Clean (st.removeCondition type) := by
  have hnone : ∀ other, st.condition? other = none → (st.removeCondition type).condition? other = none := by
    intro other hother
    by_cases heq : other = type
    · rw [heq, h.typed.condition?_removeCondition_self]
    · rw [st.condition?_removeCondition_ne heq, hother]
  exact ⟨h.typed.removeCondition type, hnone _ h.released, hnone _ h.reconcilable⟩

/-- Syncing is reported to succeed. -/
def Reconcilable (typed : Prop) (st : HelmAppStatus) : Prop :=
  typed → st.Typed ∧ st.condition? "Irreconcilable" = none

theorem Reconcilable.removeCondition {typed : Prop} {st : HelmAppStatus} (h : Reconcilable typed st)
    (hreads : typed) : Clean (st.removeCondition "ReleaseFailed") where
  typed := (h hreads).1.removeCondition _
  released := (h hreads).1.condition?_removeCondition_self _
  reconcilable := by rw [st.condition?_removeCondition_ne (by decide), (h hreads).2]

/-- The last body that was written is of a status with the property. -/
def LastStatus (T : HelmAppStatus → Prop) (s : OpState ω) : Prop :=
  ∃ before body status, s.writes = before ++ [⟨true, body⟩] ∧ body.status = some status ∧ T status

section reporting
open Prog

theorem withoutIstioEnv_between {I J : OpState ω → Prop} (lib : Unstructured)
    (hI : ∀ s o, I s → I { s with object := o }) (hJ : ∀ s o, J s → J { s with object := o })
    {p : Op ω Unit} (hp : Leads I J p) : Leads I J (Helm.withoutIstioEnv lib p) := by
  refine Ensures.readBind (Q := fun _ => J) fun istioEnv => ?_
  refine Ensures.seq (K := fun _ => I) (Ensures.modify fun s hs => ⟨(), rfl, hI s _ hs.1⟩) fun _ => ?_
  refine Ensures.attemptBind (T := fun _ => J) hp fun err => ?_
  refine Ensures.seq (K := fun _ => J) (Ensures.modify fun s hs => ⟨(), rfl, hJ s _ hs⟩) fun _ => ?_
  exact Ensures.ofExcept fun _ hs => hs

theorem retryOnConflict_between {I J : OpState ω → Prop} {p : Op ω Unit} (hJ : ∀ s, J s → I s)
    (hp : Leads I J p) : ∀ n, n ≠ 0 → Leads I J (HelmOperatorReconciler.retryOnConflict p n)
  | n + 1, _ => by
      refine Ensures.attemptBind (Q := fun _ => J) (T := fun _ => J) hp fun err => ?_
      cases err with
      | ok u => exact Ensures.pure fun _ hs => hs
      | error e =>
          simp only
          split
          · rename_i hretry
            exact fun s hs => retryOnConflict_between hJ hp n hretry.2 s (hJ s hs)
          · exact Ensures.throw fun _ hs => hs

namespace Ambient
variable {r : HelmOperatorReconciler ω} {I : OpState ω → Prop} (h : Ambient r I) (lib : Unstructured)
  {T S : HelmAppStatus → Prop}

include h

/-- The status that is written last is the present one. -/
theorem send_status : Leads (fun s => I s ∧ T s.status) (fun s => (I s ∧ T s.status) ∧ LastStatus T s)
    (r.send true) := by
  intro s hs
  refine ⟨(h.withStatus T).send true s hs, s.writes, { s.object with status := some s.status },
    s.status, ?_, rfl, hs.2⟩
  unfold HelmOperatorReconciler.send
  rw [run_atomic]
  simp only [if_true]
  split <;> rfl

theorem updateResourceStatus_reports : Leads (fun s => I s ∧ T s.status)
    (fun s => (I s ∧ T s.status) ∧ (r.steps ≠ 0 → LastStatus T s)) (r.updateResourceStatus lib) := by
  by_cases hsteps : r.steps = 0
  · exact fun s hs => ⟨(h.withStatus T).updateResourceStatus lib s hs, fun hne => absurd hsteps hne⟩
  · have hlast : Leads (fun s => I s ∧ T s.status) (fun s => (I s ∧ T s.status) ∧ LastStatus T s)
        (r.updateResourceStatus lib) :=
      withoutIstioEnv_between lib (fun s o hs => ⟨h.object s o hs.1, hs.2⟩)
        (fun s o hs => ⟨⟨h.object s o hs.1.1, hs.1.2⟩, hs.2⟩)
        (retryOnConflict_between (fun _ hs => hs.1) h.send_status r.steps hsteps)
    exact fun s hs => ⟨(hlast s hs).1, fun _ => (hlast s hs).2⟩

theorem setCondition_ensures {c : HelmAppCondition} (hT : ∀ now st, T st → S (st.setCondition now c)) :
    Ensures (fun s => I s ∧ T s.status) (fun o s => ∃ u, o = .ok u ∧ I s ∧ S s.status)
      (r.setCondition c) := by
  refine Ensures.seq (K := fun _ s => I s ∧ T s.status) ?_ fun now => ?_
  · exact Ensures.atomic fun s hs => ⟨_, rfl, h.now s hs.1, hs.2⟩
  · exact Ensures.modify fun s hs => ⟨(), rfl, h.status s _ hs.1, hT now _ hs.2⟩

theorem modifyStatus_ensures {f : HelmAppStatus → HelmAppStatus} (hT : ∀ st, T st → S (f st)) :
    Ensures (fun s => I s ∧ T s.status) (fun o s => ∃ u, o = .ok u ∧ I s ∧ S s.status)
      (Helm.modifyStatus f : Op ω Unit) :=
  Ensures.modify fun s hs => ⟨(), rfl, h.status s _ hs.1, hT _ hs.2⟩

theorem fail_ensures {α : Type} (call : ManagerCall) (e : GoError) :
    Ensures I (fun o s => o = .error e ∧ I s ∧ (r.steps ≠ 0 → LastStatus (Says call e) s))
      (r.fail lib call.failure.1 call.failure.2 e : Op ω α) := by
  have hreport : ∀ now (st : HelmAppStatus), True → Says call e (st.setCondition now (call.report e)) :=
    fun now st _ => st.condition?_setCondition_self now (call.report e)
  refine Ensures.seq ((h.setCondition_ensures hreport).weaken fun _ hs => ⟨hs, trivial⟩) fun _ => ?_
  refine Ensures.attemptBind (Leads.ensures (h.updateResourceStatus_reports lib)) fun _ => ?_
  exact Ensures.throw fun s hs => ⟨rfl, hs.1.1, hs.2⟩

end Ambient

end reporting

/-! ### The course of a reconciliation -/

section courses
variable (r : HelmOperatorReconciler ω) (m : Manager ω)

/-- The release is not there, or not any more. -/
def CallRecord.Uninstalled (c : CallRecord ω) : Prop :=
  c.call = .uninstallRelease ∧ ∀ e, c.outcome = .error e → e.kind = .releaseNotFound

def CallRecord.Synced (c : CallRecord ω) : Prop := c.call = .sync ∧ c.outcome = .ok none

/-- The manager has said that the release is installed. -/
def Installed (w : ω) : Prop := ∃ w₀, m.isInstalled w₀ = true ∧ Follows r w₀ w

/-- Which of the actions it is, by what the manager says. -/
def Chosen (c : CallRecord ω) : Prop :=
  match c.call with
  | .installRelease => m.isInstalled c.before = false
  | .updateRelease _ => Installed r m c.before ∧ m.isUpdateRequired c.before = true
  | .reconcileRelease => Installed r m c.before ∧ m.isUpdateRequired c.before = false
  | _ => False

/-- The calls of one reconciliation. -/
inductive Protocol : List (CallRecord ω) → Prop
  | none : Protocol []
  | uninstall (c) (hc : c.call = .uninstallRelease) : Protocol [c]
  | sync (c) (hc : c.call = .sync) : Protocol [c]
  | act (c₁ c₂) (h₁ : c₁.Synced) (h₂ : Chosen r m c₂) : Protocol [c₁, c₂]

/-- What a reconciliation comes to. -/
inductive Course (typed : Prop) (req : Request) (o : Except GoError Time) (s : OpState (Logged ω)) : Prop
  | idle (hcalls : s.world.calls = []) (ho : ∀ t, o = .ok t → t = 0)
  | failed {prior : List (CallRecord ω)} {c : CallRecord ω} {e : GoError}
      (hcalls : s.world.calls = prior ++ [c]) (hprotocol : Protocol r m (prior ++ [c]))
      (hc : c.outcome = .error e) (hgone : ¬ c.Uninstalled) (ho : o = .error e)
      (hreport : r.steps ≠ 0 → LastStatus (Says c.call e) s)
  | uninstalled {c : CallRecord ω} (hcalls : s.world.calls = [c]) (hc : c.Uninstalled)
      (ho : ∀ t, o = .ok t → t = 0 ∧ ∃ w e, r.client.get req w = (.error e, s.world.world) ∧
        e.kind = .notFound)
  | unheld {c : CallRecord ω} (hcalls : s.world.calls = [c]) (hc : c.Synced) (ho : ∀ t, o ≠ .ok t)
  | acted {c₁ c₂ : CallRecord ω} {release : Release} (hcalls : s.world.calls = [c₁, c₂])
      (h₁ : c₁.Synced) (h₂ : Chosen r m c₂) (hc₂ : c₂.outcome = .ok (some release))
      (ho : ∀ t, o = .ok t → t = r.reconcilePeriod ∧ (r.steps ≠ 0 → LastStatus (Reports typed c₂.call release) s))

end courses

section paths
open Prog
variable {r : HelmOperatorReconciler ω} {m : Manager ω} {typed : Prop} (lib : Unstructured)
  (req : Request)

/-- A call is noted down. -/
theorem asks {α : Type} {call : ManagerCall} {release : α → Option Release}
    {f : ω → Except GoError α × ω} {calls : List (CallRecord ω)} {P : ω → Prop}
    {T : HelmAppStatus → Prop} :
    Ensures (fun s => s.world.calls = calls ∧ P s.world.world ∧ T s.status)
      (fun o s => ∃ c : CallRecord ω, (c.call = call ∧ c.outcome = o.map release ∧ P c.before) ∧
        s.world.calls = calls ++ [c] ∧ T s.status)
      (ask (Logged.note call release f) : Op (Logged ω) α) :=
  Ensures.atomic fun s ⟨hcalls, hworld, hstatus⟩ =>
    ⟨⟨call, (f s.world.world).1.map release, s.world.world, (f s.world.world).2⟩, ⟨rfl, rfl, hworld⟩,
      by rw [← hcalls]; rfl, hstatus⟩

theorem fail_course (prior : List (CallRecord ω)) (c : CallRecord ω) {e : GoError}
    (hprotocol : Protocol r m (prior ++ [c])) (hc : c.outcome = .error e) (hgone : ¬ c.Uninstalled) :
    Ensures (fun s => s.world.calls = prior ++ [c]) (Course r m typed req)
      (r.logged.fail lib c.call.failure.1 c.call.failure.2 e) := by
  have h := calls_ambient r fun calls => calls = prior ++ [c]
  exact (h.fail_ensures lib c.call e).mono fun o s ⟨ho, hcalls, hreport⟩ =>
    .failed hcalls hprotocol hc hgone ho hreport

/-- The status is written, and the reconciliation ends. -/
theorem reported_course {c₁ c₂ : CallRecord ω} {release : Release} (h₁ : c₁.Synced)
    (h₂ : Chosen r m c₂) (hc₂ : c₂.outcome = .ok (some release)) :
    Ensures (fun s => s.world.calls = [c₁, c₂] ∧ Reports typed c₂.call release s.status) (Course r m typed req)
      (r.logged.updateResourceStatus lib >>= fun _ => .pure r.logged.reconcilePeriod) := by
  have h := calls_ambient r fun calls => calls = [c₁, c₂]
  refine Ensures.bind (Leads.ensures (h.updateResourceStatus_reports lib)) (fun _ => ?_) ?_
  · refine Ensures.pure fun s ⟨⟨hcalls, _⟩, hlast⟩ => .acted hcalls h₁ h₂ hc₂ ?_
    rintro t ⟨⟩
    exact ⟨rfl, hlast⟩
  · exact fun e s ⟨⟨hcalls, _⟩, _⟩ => .acted hcalls h₁ h₂ hc₂ nofun

theorem deployed_course {c₁ c₂ : CallRecord ω} {release : Release} {reason : String}
    (h₁ : c₁.Synced) (h₂ : Chosen r m c₂) (hc₂ : c₂.outcome = .ok (some release))
    (hreason : c₂.call.success = some reason) :
    Ensures (fun s => s.world.calls = [c₁, c₂] ∧ (typed → Clean s.status)) (Course r m typed req)
      (r.logged.deployed lib reason release) := by
  have h := calls_ambient r fun calls => calls = [c₁, c₂]
  refine Ensures.seq (h.setCondition_ensures (T := fun st => typed → Clean st)
    (S := fun st => Announces reason release st ∧ (typed → Clean st)) fun now st hclean =>
      ⟨st.condition?_setCondition_self now (release.report reason),
        fun hreads => (hclean hreads).setCondition now (by simp) (by simp)⟩) fun _ => ?_
  refine Ensures.seq (h.modifyStatus_ensures
    (T := fun st => Announces reason release st ∧ (typed → Clean st))
    (S := Reports typed c₂.call release) fun st ⟨hannounced, hclean⟩ => ?_) fun _ => ?_
  · refine ⟨rfl, fun reason' hreason' => ?_, fun hreads => ⟨?_, ?_, ?_⟩⟩
    · obtain rfl := Option.some.inj (hreason.symm.trans hreason')
      exact hannounced
    · exact (hclean hreads).typed
    · exact (hclean hreads).released
    · exact (hclean hreads).reconcilable
  · exact reported_course lib req h₁ h₂ hc₂

/-- Behind a successful action: the calls are made, and an exception is no report. -/
theorem acted_throws {α : Type} {c₁ c₂ : CallRecord ω} {release : Release} {I : OpState (Logged ω) → Prop}
    {p : Op (Logged ω) α} {f : α → Op (Logged ω) Time} (h₁ : c₁.Synced) (h₂ : Chosen r m c₂)
    (hc₂ : c₂.outcome = .ok (some release)) (hI : ∀ s, I s → s.world.calls = [c₁, c₂])
    (hp : Leads I I p) (hf : ∀ a, Ensures I (Course r m typed req) (f a)) :
    Ensures I (Course r m typed req) (p >>= f) :=
  Ensures.bind hp.ensures hf fun _ s hs => .acted (hI s hs) h₁ h₂ hc₂ nofun

theorem install_course {c₁ : CallRecord ω} (h₁ : c₁.Synced) :
    Ensures (fun s => s.world.calls = [c₁] ∧ m.isInstalled s.world.world = false ∧
      Reconcilable typed s.status) (Course r m typed req) (r.logged.install lib m.logged) := by
  refine Ensures.attemptBind (asks (P := fun w => m.isInstalled w = false)) fun installed => ?_
  refine Ensures.ofExists fun ⟨call, outcome, before, after⟩ => Ensures.given ?_
  rintro ⟨rfl, rfl, hinstalled⟩
  have h₂ : Chosen r m ⟨.installRelease, installed.map some, before, after⟩ := hinstalled
  cases installed with
  | error e =>
      exact (fail_course lib req [c₁] ⟨.installRelease, .error e, before, after⟩ (.act c₁ _ h₁ h₂) rfl
        (fun hgone => nomatch hgone.1)).weaken fun s hs => hs.1
  | ok release =>
      have h := calls_ambient r fun calls => calls =
        [c₁, ⟨.installRelease, .ok (some release), before, after⟩]
      have hclean := h.withStatus fun st => typed → Clean st
      refine Ensures.seq (h.modifyStatus_ensures (T := Reconcilable typed)
        (S := fun st => typed → Clean st) fun st hst => hst.removeCondition) fun _ => ?_
      refine acted_throws req h₁ h₂ rfl (fun s hs => hs.1) (hclean.addFinalizer lib) fun _ => ?_
      refine acted_throws req h₁ h₂ rfl (fun s hs => hs.1) (hclean.runHook release) fun _ => ?_
      exact deployed_course lib req h₁ h₂ rfl rfl

theorem update_course {c₁ : CallRecord ω} (h₁ : c₁.Synced) :
    Ensures (fun s => s.world.calls = [c₁] ∧ (Installed r m s.world.world ∧
      m.isUpdateRequired s.world.world = true) ∧ Reconcilable typed s.status) (Course r m typed req)
      (r.logged.update lib m.logged) := by
  refine Ensures.readBind fun force => Ensures.weaken (I := fun s => s.world.calls = [c₁] ∧
    (Installed r m s.world.world ∧ m.isUpdateRequired s.world.world = true) ∧ Reconcilable typed s.status)
    ?_ fun s hs => hs.1
  refine Ensures.attemptBind
    (asks (P := fun w => Installed r m w ∧ m.isUpdateRequired w = true)) fun updated => ?_
  refine Ensures.ofExists fun ⟨call, outcome, before, after⟩ => Ensures.given ?_
  rintro ⟨rfl, rfl, hrequired⟩
  have h₂ : Chosen r m ⟨.updateRelease force, updated.map some, before, after⟩ := hrequired
  cases updated with
  | error e =>
      exact (fail_course lib req [c₁] ⟨.updateRelease force, .error e, before, after⟩
        (.act c₁ _ h₁ h₂) rfl (fun hgone => nomatch hgone.1)).weaken fun s hs => hs.1
  | ok release =>
      have h := calls_ambient r fun calls => calls =
        [c₁, ⟨.updateRelease force, .ok (some release), before, after⟩]
      have hclean := h.withStatus fun st => typed → Clean st
      refine Ensures.seq (h.modifyStatus_ensures (T := Reconcilable typed)
        (S := fun st => typed → Clean st) fun st hst => hst.removeCondition) fun _ => ?_
      refine acted_throws req h₁ h₂ rfl (fun s hs => hs.1) (hclean.runHook release) fun _ => ?_
      exact deployed_course lib req h₁ h₂ rfl rfl

theorem reconcileRelease_course {c₁ : CallRecord ω} (h₁ : c₁.Synced) :
    Ensures (fun s => s.world.calls = [c₁] ∧ (Installed r m s.world.world ∧
      m.isUpdateRequired s.world.world = false) ∧ Reconcilable typed s.status) (Course r m typed req)
      (r.logged.reconcileRelease lib m.logged) := by
  refine Ensures.seq (K := fun _ s => s.world.calls = [c₁] ∧ (Installed r m s.world.world ∧
    m.isUpdateRequired s.world.world = false) ∧ (typed → Clean s.status)) ?_ fun _ => ?_
  · exact Ensures.modify fun s ⟨hcalls, hworld, hst⟩ => ⟨(), rfl, hcalls, hworld, hst.removeCondition⟩
  refine Ensures.attemptBind (asks (P := fun w => Installed r m w ∧ m.isUpdateRequired w = false)
    (T := fun st => typed → Clean st)) fun expected => ?_
  refine Ensures.ofExists fun ⟨call, outcome, before, after⟩ => Ensures.given ?_
  rintro ⟨rfl, rfl, hrequired⟩
  have h₂ : Chosen r m ⟨.reconcileRelease, expected.map some, before, after⟩ := hrequired
  cases expected with
  | error e =>
      exact (fail_course lib req [c₁] ⟨.reconcileRelease, .error e, before, after⟩
        (.act c₁ _ h₁ h₂) rfl (fun hgone => nomatch hgone.1)).weaken fun s hs => hs.1
  | ok release =>
      have h := calls_ambient r fun calls => calls =
        [c₁, ⟨.reconcileRelease, .ok (some release), before, after⟩]
      have hclean := h.withStatus fun st => typed → Clean st
      refine Ensures.seq (h.modifyStatus_ensures (T := fun st => typed → Clean st)
        (S := fun st => typed → Clean st) fun st hst hreads =>
          (hst hreads).removeCondition _) fun _ => ?_
      refine acted_throws req h₁ h₂ rfl (fun s hs => hs.1) (hclean.runHook release) fun _ => ?_
      refine Ensures.seq (h.modifyStatus_ensures (T := fun st => typed → Clean st)
        (S := Reports typed .reconcileRelease release) fun st hst => ⟨rfl, nofun, fun hreads =>
          ⟨(hst hreads).typed, (hst hreads).released, (hst hreads).reconcilable⟩⟩) fun _ => ?_
      exact reported_course lib req h₁ h₂ rfl

theorem maintain_course : Ensures (fun s => s.world.calls = [] ∧ (typed → s.status.Typed))
    (Course r m typed req) (r.logged.maintain lib m.logged) := by
  have h := calls_ambient r fun calls => calls = []
  refine Ensures.seq (h.setCondition_ensures (T := fun st => typed → st.Typed)
    (S := fun st => typed → st.Typed) fun now st hst hreads =>
      (hst hreads).setCondition now _) fun _ => ?_
  refine Ensures.attemptBind ((asks (P := fun _ => True) (T := fun st => typed → st.Typed)).weaken
    fun s hs => ⟨hs.1, trivial, hs.2⟩) fun synced => ?_
  refine Ensures.ofExists fun ⟨call, outcome, before, after⟩ => Ensures.given ?_
  rintro ⟨rfl, rfl, -⟩
  cases synced with
  | error e =>
      exact (fail_course lib req [] ⟨.sync, .error e, before, after⟩ (.sync _ rfl) rfl
        (fun hgone => nomatch hgone.1)).weaken fun s hs => hs.1
  | ok u =>
      have h₁ : CallRecord.Synced ⟨.sync, .ok none, before, after⟩ := ⟨rfl, rfl⟩
      have h := calls_ambient r fun calls => calls = [⟨.sync, .ok none, before, after⟩]
      refine Ensures.seq (h.modifyStatus_ensures (T := fun st => typed → st.Typed)
        (S := Reconcilable typed) fun st hst hreads =>
          ⟨(hst hreads).removeCondition _, (hst hreads).condition?_removeCondition_self _⟩) fun _ => ?_
      refine Ensures.readBind fun installed => ?_
      cases installed with
      | false =>
          exact (install_course lib req h₁).weaken fun s ⟨⟨hcalls, hst⟩, hinstalled⟩ =>
            ⟨hcalls, hinstalled, hst⟩
      | true =>
          have hinstalled := (logged_ambient (r := r) (J := fun calls w =>
            calls = [⟨.sync, .ok none, before, after⟩] ∧ Installed r m w) fun calls w w' hstep hs =>
              ⟨hs.1, calm_follows r _ w w' hstep hs.2⟩).withStatus (Reconcilable typed)
          refine (Ensures.bind (Leads.ensures (hinstalled.ensureFinalizer lib)) (fun _ => ?_)
            fun e s hs => .unheld hs.1.1 h₁ nofun).weaken
              fun s ⟨⟨hcalls, hst⟩, hsaid⟩ => ⟨⟨hcalls, s.world.world, hsaid, .refl⟩, hst⟩
          refine Ensures.readBind fun required => ?_
          cases required with
          | false =>
              exact (reconcileRelease_course lib req h₁).weaken
                fun s ⟨⟨⟨hcalls, hworld⟩, hst⟩, hrequired⟩ => ⟨hcalls, ⟨hworld, hrequired⟩, hst⟩
          | true =>
              exact (update_course lib req h₁).weaken
                fun s ⟨⟨⟨hcalls, hworld⟩, hst⟩, hrequired⟩ => ⟨hcalls, ⟨hworld, hrequired⟩, hst⟩

/-- If the wait is over the object was not found. -/
theorem waitForDeletion_ensures (calls : List (CallRecord ω)) :
    ∀ n, Ensures (fun s => s.world.calls = calls) (fun o s => s.world.calls = calls ∧ ∀ u, o = .ok u →
      ∃ w e, r.client.get req w = (.error e, s.world.world) ∧ e.kind = .notFound)
      (r.logged.waitForDeletion req n)
  | 0 => Ensures.throw fun s hs => ⟨hs, nofun⟩
  | n + 1 => by
      refine Ensures.attemptBind (T := fun o s => s.world.calls = calls ∧
        ∃ w, r.client.get req w = (o, s.world.world)) ?_ fun found => ?_
      · exact Ensures.atomic fun s hs => ⟨hs, s.world.world, rfl⟩
      cases found with
      | error e =>
          simp only
          split
          · rename_i hkind
            exact Ensures.pure fun s ⟨hcalls, w, hw⟩ => ⟨hcalls, fun _ _ => ⟨w, e, hw, hkind⟩⟩
          · exact Ensures.throw fun s hs => ⟨hs.1, nofun⟩
      | ok o =>
          refine Ensures.seq (K := fun _ s => s.world.calls = calls)
            (Ensures.modify fun s hs => ⟨(), rfl, hs.1⟩) fun _ => ?_
          exact waitForDeletion_ensures calls n

/-- The release is gone: the finalizer goes, and then the object. -/
theorem release_course {c : CallRecord ω} (hc : c.Uninstalled) :
    Ensures (fun s => s.world.calls = [c]) (Course r m typed req) (do
      r.logged.updateResourceStatus lib
      modifyObject (lib.removeFinalizer HelmOperatorReconciler.finalizer)
      r.logged.updateResource lib
      r.logged.waitForDeletion req r.logged.polls
      .pure 0) := by
  have h := calls_ambient r fun calls => calls = [c]
  refine Ensures.bind (h.updateResourceStatus lib).ensures (fun _ => ?_)
    fun e s hs => .uninstalled hs hc nofun
  refine Ensures.bind (h.modifyObject _).ensures (fun _ => ?_) fun e s hs => .uninstalled hs hc nofun
  refine Ensures.bind (h.updateResource lib).ensures (fun _ => ?_)
    fun e s hs => .uninstalled hs hc nofun
  refine Ensures.bind (waitForDeletion_ensures req [c] _) (fun u => ?_)
    fun e s hs => .uninstalled hs.1 hc nofun
  refine Ensures.pure fun s ⟨hcalls, hgone⟩ => .uninstalled hcalls hc ?_
  rintro t ⟨⟩
  exact ⟨rfl, hgone u rfl⟩

theorem uninstall_course : Ensures (fun s => s.world.calls = []) (Course r m typed req)
    (r.logged.uninstall lib req m.logged) := by
  refine Ensures.readBind fun finalizers => ?_
  split
  · refine Ensures.pure fun s hs => .idle hs.1 ?_
    rintro t ⟨⟩
    rfl
  refine Ensures.attemptBind ((asks (P := fun _ => True) (T := fun _ => True)).weaken
    fun s hs => ⟨hs.1, trivial, trivial⟩) fun uninstalled => ?_
  refine Ensures.ofExists fun ⟨call, outcome, before, after⟩ => Ensures.given ?_
  rintro ⟨rfl, rfl, -⟩
  have h := calls_ambient r fun calls =>
    calls = [⟨.uninstallRelease, uninstalled.map some, before, after⟩]
  have hgone : (∀ e, uninstalled = .error e → e.kind = .releaseNotFound) →
      CallRecord.Uninstalled ⟨.uninstallRelease, uninstalled.map some, before, after⟩ := by
    intro hgone
    refine ⟨rfl, fun e he => ?_⟩
    cases uninstalled with
    | ok release => cases he
    | error e' =>
        obtain rfl := Except.error.inj he
        exact hgone _ rfl
  by_cases hall : ∀ e, uninstalled = .error e → e.kind = .releaseNotFound
  · refine (Ensures.bind (h.uninstalled lib uninstalled).ensures
      (fun _ => release_course lib req (hgone hall))
      fun e s hs => .uninstalled hs (hgone hall) nofun).weaken fun s hs => hs.1
  · obtain ⟨e, rfl, hkind⟩ : ∃ e, uninstalled = .error e ∧ e.kind ≠ .releaseNotFound := by
      simpa using hall
    refine Ensures.bind (T := fun o s => o = .error e ∧
      s.world.calls = [⟨.uninstallRelease, .error e, before, after⟩] ∧
      (r.steps ≠ 0 → LastStatus (Says .uninstallRelease e) s)) ?_ ?_ ?_
    · unfold HelmOperatorReconciler.uninstalled
      simp only [hkind, ne_eq, not_false_eq_true, if_true]
      exact (h.fail_ensures lib .uninstallRelease e).weaken fun s hs => hs.1
    · exact fun _ s hs => nomatch hs.1
    · rintro e' s ⟨⟨⟩, hcalls, hreport⟩
      exact .failed (hcalls.trans (List.nil_append _).symm) (.uninstall _ rfl) rfl
        (fun hgone => hkind (hgone.2 e rfl)) rfl hreport

/-- From `w₀` to `w` no manager was made: none was asked for, or the only attempt failed. -/
def Unmade (r : HelmOperatorReconciler ω) (w₀ w : ω) : Prop :=
  Follows r w₀ w ∨ ∃ cr w₁ e, Follows r w₀ w₁ ∧ r.newManager cr w₁ = (.error e, w)

/-- How a reconciliation that starts in `w₀` ends: no manager is made, or one is. -/
def Reconciled (r : HelmOperatorReconciler ω) (req : Request) (w₀ : ω) (o : Except GoError Time)
    (s : OpState (Logged ω)) : Prop :=
  (s.world.calls = [] ∧ Unmade r w₀ s.world.world ∧ ∀ t, o = .ok t → t = 0) ∨
  ∃ m cr w w', Follows r w₀ w ∧ r.newManager cr w = (.ok m, w') ∧
    Course r m (TypedRead r req w₀) req o s ∧ Timeline r m w' s.world.calls s.world.world

theorem statusFor_congr {o o' : CustomResource} (hstatus : o'.status = o.status)
    (hnested : nested ["status"] o'.object = nested ["status"] o.object) :
    r.statusFor o' = r.statusFor o := by
  unfold HelmOperatorReconciler.statusFor
  rw [hstatus, hnested]

/-- The injected settings are no part of the status. -/
theorem nested_status_inject (istioEnv revision : String) (o : Json) :
    nested ["status"] (inject lib istioEnv revision o) = nested ["status"] o := by
  have htext : ∀ v (path : List String) o, ¬ path <+: ["status"] → ¬ ["status"] <+: path →
      nested ["status"] (setText lib v path o) = nested ["status"] o := by
    intro v path o hpath hstatus
    unfold setText
    cases hset : lib.setNestedField (.str v) path o with
    | none => rfl
    | some o' => exact lib.setNestedField_other _ path o o' ["status"] hset hpath hstatus
  unfold inject
  rw [htext _ _ _ (by decide) (by decide), htext _ _ _ (by decide) (by decide),
    htext _ _ _ (by decide) (by decide), htext _ _ _ (by decide) (by decide)]

/-- Nothing is asked yet, and the status of the object is the one that was read. -/
structure Begun (r : HelmOperatorReconciler ω) (req : Request) (w₀ : ω) (s : OpState (Logged ω)) :
    Prop where
  calls : s.world.calls = []
  follows : Follows r w₀ s.world.world
  typed : TypedRead r req w₀ → (r.statusFor s.object).Typed

theorem manage_course (w₀ : ω) : Ensures (Begun r req w₀) (Reconciled r req w₀)
    (r.logged.manage lib req) := by
  refine Ensures.readBind fun cr => ?_
  refine Ensures.bind (T := fun o s => s.world.calls = [] ∧
    (TypedRead r req w₀ → (r.statusFor cr).Typed) ∧ (∀ mgr, o = .ok mgr →
      ∃ m w, mgr = m.logged ∧ Follows r w₀ w ∧ r.newManager cr w = (.ok m, s.world.world)) ∧
    ∀ e, o = .error e → Unmade r w₀ s.world.world) ?_ (fun mgr => ?_) ?_
  · refine Ensures.atomic fun s ⟨hbegun, hcr⟩ => ⟨hbegun.calls, hcr ▸ hbegun.typed, fun mgr hmgr => ?_,
      fun e he => Or.inr ⟨cr, s.world.world, e, hbegun.follows,
        HelmOperatorReconciler.logged_newManager_error he⟩⟩
    obtain ⟨m, hm, hnew⟩ := HelmOperatorReconciler.logged_newManager hmgr
    exact ⟨m, s.world.world, hm, hbegun.follows, hnew⟩
  · refine (Ensures.ofExists (J := fun m s => mgr = m.logged ∧
      (TypedRead r req w₀ → (r.statusFor cr).Typed) ∧
      s.world.calls = [] ∧ ∃ w, Follows r w₀ w ∧ r.newManager cr w = (.ok m, s.world.world))
      fun m => ?_).weaken ?_
    · refine Ensures.given ?_
      rintro rfl
      refine Ensures.given fun htyped => ?_
      refine Ensures.seq (K := fun _ s => (s.world.calls = [] ∧
        (TypedRead r req w₀ → s.status.Typed)) ∧
        ∃ w, Follows r w₀ w ∧ r.newManager cr w = (.ok m, s.world.world)) ?_ fun _ => ?_
      · exact Ensures.modify fun s hs => ⟨(), rfl, ⟨hs.1, htyped⟩, hs.2⟩
      refine Ensures.readBind fun deletionTimestamp => ?_
      intro s ⟨⟨hs, w, hw, hnew⟩, _⟩
      have hstart : Timeline r m s.world.world s.world.calls s.world.world := by
        rw [hs.1]
        exact .start
      cases deletionTimestamp with
      | some time => exact Or.inr ⟨m, cr, w, s.world.world, hw, hnew, uninstall_course lib req s hs.1,
          (timeline_kept r m s.world.world).uninstall lib req s hstart⟩
      | none => exact Or.inr ⟨m, cr, w, s.world.world, hw, hnew, maintain_course lib req s hs,
          (timeline_kept r m s.world.world).maintain lib s hstart⟩
    · rintro s ⟨hcalls, htyped, hm, -⟩
      obtain ⟨m, w, rfl, hw⟩ := hm mgr rfl
      exact ⟨m, rfl, htyped, hcalls, w, hw⟩
  · exact fun e s ⟨hcalls, _, _, hunmade⟩ => Or.inl ⟨hcalls, hunmade e rfl, nofun⟩

theorem Begun.edit {w₀ : ω} {s : OpState (Logged ω)} (h : Begun r req w₀ s) {f : Json → Json}
    (hf : ∀ o, nested ["status"] (f o) = nested ["status"] o) :
    Begun r req w₀ { s with object := { s.object with object := f s.object.object } } where
  calls := h.calls
  follows := h.follows
  typed hread := by
    have hstatus : r.statusFor ⟨f s.object.object, s.object.status⟩ = r.statusFor s.object :=
      statusFor_congr rfl (hf _)
    show (r.statusFor ⟨f s.object.object, s.object.status⟩).Typed
    rw [hstatus]
    exact h.typed hread

/-- The settings are injected; the status of the object stays what it is. -/
theorem setupNamespaceAndIstioEnv_begun (w₀ : ω) :
    Leads (Begun r req w₀) (Begun r req w₀) (r.logged.setupNamespaceAndIstioEnv lib req) := by
  refine Leads.bind (Leads.modify fun s hs => hs.edit req fun o =>
    lib.setNamespace_other _ o ["status"] (by decide) (by decide)) fun _ => ?_
  refine Leads.bind (Leads.read (fun _ hs => hs) _) fun env => ?_
  refine Leads.bind (Leads.modify fun s hs => hs.edit req (nested_status_inject lib _ _)) fun _ => ?_
  refine Leads.bind (Leads.atomic fun s hs => ?_) fun _ => ?_
  · exact ⟨hs.calls, hs.follows.tail (Ambiently.patch _ _ _), hs.typed⟩
  exact Leads.pure (fun _ hs => hs) ()

theorem reconcile_course (w₀ : ω) : Ensures (fun s => s.world.calls = [] ∧ s.world.world = w₀)
    (Reconciled r req w₀) (r.logged.reconcile lib req) := by
  refine Ensures.attemptBind (T := fun found s => s.world.calls = [] ∧ Follows r w₀ s.world.world ∧
    ∀ o, found = .ok o → TypedRead r req w₀ → (r.statusFor ⟨o, none⟩).Typed) ?_ fun found => ?_
  · refine Ensures.atomic fun s ⟨hcalls, hworld⟩ => ⟨hcalls, ?_, fun o ho hread => ?_⟩
    · exact hworld ▸ .single (.get req s.world.world)
    · have hget : (r.client.get req w₀).1 = .ok o := hworld ▸ ho
      exact hread o _ (Prod.ext hget rfl)
  cases found with
  | error e =>
      simp only
      split
      · refine Ensures.pure fun s hs => Or.inl ⟨hs.1, Or.inl hs.2.1, ?_⟩
        rintro t ⟨⟩
        rfl
      · exact Ensures.throw fun s hs => Or.inl ⟨hs.1, Or.inl hs.2.1, nofun⟩
  | ok o =>
      refine Ensures.seq (K := fun _ => Begun r req w₀) (Ensures.modify fun s hs =>
        ⟨(), rfl, hs.1, hs.2.1, hs.2.2 o rfl⟩) fun _ => ?_
      exact Ensures.bind (setupNamespaceAndIstioEnv_begun lib req w₀).ensures
        (fun _ => manage_course lib req w₀) fun e s hs => Or.inl ⟨hs.calls, Or.inl hs.follows, nofun⟩

end paths

/-! ### Any run -/

/-- What comes before the last call is a sync that has succeeded. -/
theorem Protocol.prior {r : HelmOperatorReconciler ω} {m : Manager ω} {prior calls : List (CallRecord ω)}
    {c : CallRecord ω} (h : Protocol r m calls) (hcalls : calls = prior ++ [c]) :
    ∀ d ∈ prior, d.Synced := by
  cases h with
  | none => exact absurd hcalls (by simp)
  | uninstall d hd =>
      obtain ⟨rfl, -⟩ := List.append_inj' (show [] ++ [d] = prior ++ [c] from hcalls) rfl
      exact fun d hd => nomatch hd
  | sync d hd =>
      obtain ⟨rfl, -⟩ := List.append_inj' (show [] ++ [d] = prior ++ [c] from hcalls) rfl
      exact fun d hd => nomatch hd
  | act c₁ c₂ h₁ h₂ =>
      obtain ⟨rfl, -⟩ := List.append_inj' (show [c₁] ++ [c₂] = prior ++ [c] from hcalls) rfl
      intro d hd
      obtain rfl := List.mem_singleton.mp hd
      exact h₁

theorem Course.protocol {r : HelmOperatorReconciler ω} {m : Manager ω} {req : Request}
    {o : Except GoError Time} {s : OpState (Logged ω)} (h : Course r m typed req o s) :
    Protocol r m s.world.calls := by
  cases h with
  | idle hcalls =>
      rw [hcalls]
      exact .none
  | failed hcalls hprotocol =>
      rw [hcalls]
      exact hprotocol
  | uninstalled hcalls hc =>
      rw [hcalls]
      exact .uninstall _ hc.1
  | unheld hcalls hc =>
      rw [hcalls]
      exact .sync _ hc.1
  | acted hcalls h₁ h₂ =>
      rw [hcalls]
      exact .act _ _ h₁ h₂

section runs
variable {r : HelmOperatorReconciler ω} {lib : Unstructured} {req : Request}
  {s s' : OpState (Logged ω)} {o : Except GoError Time}

/-- A release manager that does what it is asked for; the world says whether there is a release. -/
def workingManager : Manager Bool where
  uninstallRelease w := (if w then .ok ⟨"demo", "", none⟩ else .error { kind := .releaseNotFound }, false)
  sync w := (.ok (), w)
  isInstalled w := w
  installRelease _ := (.ok ⟨"demo", "m", some "enjoy"⟩, true)
  isUpdateRequired _ := false
  updateRelease _ w := (.ok ⟨"demo", "m", none⟩, w)
  reconcileRelease w := (.ok ⟨"demo", "m", none⟩, w)

/-- An API server that stores what it is given. -/
def serving (o : Json) : HelmOperatorReconciler Bool where
  client :=
    { get := fun _ w => (.ok o, w)
      update := fun _ o w => (.ok o.object, w)
      updateStatus := fun stored _ w => (.ok stored, w)
      patch := fun _ _ w => (none, w)
      update_spec := by
        rintro stored o w o' w' ⟨⟩
        rfl
      updateStatus_spec := by
        rintro stored o w o' w' ⟨⟩
        rfl }
  newManager _ w := (.ok workingManager, w)
  reconcilePeriod := 60
  fromUnstructured _ := .ok {}
  now w := (0, w)
  steps := 4
  polls := 1

/-- **Calls**: whatever the world does, a reconciliation makes no manager, or one that it asks for
nothing, or for the release to be uninstalled, or else to sync, and behind a sync for the action that
fits what the manager says; the answers are that manager's, and between the calls only ambient things
happen to the world. -/
theorem reconcile_protocol (hs : s.world.calls = [])
    (hrun : (r.logged.reconcile lib req).run s = (o, s')) :
    (s'.world.calls = [] ∧ Unmade r s.world.world s'.world.world) ∨
    ∃ m cr w w', Follows r s.world.world w ∧ r.newManager cr w = (.ok m, w') ∧
      Protocol r m s'.world.calls ∧ Timeline r m w' s'.world.calls s'.world.world := by
  rcases (reconcile_course lib req _).of_run ⟨hs, rfl⟩ hrun with
    ⟨hcalls, hunmade, -⟩ | ⟨m, cr, w, w', hw, hnew, hcourse, htime⟩
  · exact Or.inl ⟨hcalls, hunmade⟩
  exact Or.inr ⟨m, cr, w, w', hw, hnew, hcourse.protocol, htime⟩

/-- The first reconciliation syncs and installs. -/
theorem reconcile_protocol_sample :
    let start : OpState (Logged Bool) := { world := { world := false } }
    let ended := (((serving settledResource).logged.reconcile plain ⟨"", "demo"⟩).run start).2
    (ended.world.calls = [] ∧ Unmade (serving settledResource) start.world.world ended.world.world) ∨
    ∃ m cr w w', Follows (serving settledResource) start.world.world w ∧
      (serving settledResource).newManager cr w = (.ok m, w') ∧
      Protocol (serving settledResource) m ended.world.calls ∧
      Timeline (serving settledResource) m w' ended.world.calls ended.world.world :=
  reconcile_protocol rfl (Prod.mk.eta).symm

example : ((((serving settledResource).logged.reconcile plain ⟨"", "demo"⟩).run
    { world := { world := false } }).2.world.calls.map CallRecord.call) = [.sync, .installRelease] := by
  decide +kernel

/-- **Failures**: a call that fails is the last one, unless it is that a release to be uninstalled is
not there.  Its error is returned, and the last body that is written is a status that reports it. -/
theorem reconcile_reports_failure (hsteps : r.steps ≠ 0) (hs : s.world.calls = [])
    (hrun : (r.logged.reconcile lib req).run s = (o, s')) {c : CallRecord ω} (hc : c ∈ s'.world.calls)
    {e : GoError} (he : c.outcome = .error e) (hgone : ¬ c.Uninstalled) :
    s'.world.calls.getLast? = some c ∧ o = .error e ∧ LastStatus (Says c.call e) s' := by
  have hsynced : ∀ d : CallRecord ω, d.Synced → d ≠ c := by
    rintro d ⟨-, hok⟩ rfl
    rw [hok] at he
    cases he
  rcases (reconcile_course lib req _).of_run ⟨hs, rfl⟩ hrun with
    ⟨hcalls, -⟩ | ⟨m, cr, w, w', -, -, hcourse, -⟩
  · rw [hcalls] at hc
    cases hc
  cases hcourse with
  | idle hcalls =>
      rw [hcalls] at hc
      cases hc
  | @failed prior d e' hcalls hprotocol hd hnotgone ho hreport =>
      rw [hcalls] at hc ⊢
      rcases List.mem_append.mp hc with hprior | hlast
      · exact absurd rfl (hsynced c (hprotocol.prior rfl c hprior))
      · obtain rfl := List.mem_singleton.mp hlast
        obtain rfl := Except.error.inj (hd.symm.trans he)
        exact ⟨List.getLast?_concat, ho, hreport hsteps⟩
  | @uninstalled d hcalls hd _ =>
      rw [hcalls, List.mem_singleton] at hc
      exact absurd (hc ▸ hd) hgone
  | @unheld d hcalls hd _ =>
      rw [hcalls, List.mem_singleton] at hc
      exact absurd hc.symm (hsynced d hd)
  | @acted c₁ c₂ release hcalls h₁ _ hc₂ _ =>
      rw [hcalls] at hc
      rcases List.mem_cons.mp hc with hfirst | hsecond
      · exact absurd hfirst.symm (hsynced c₁ h₁)
      · rw [List.mem_singleton.mp hsecond, hc₂] at he
        cases he

/-- The resource cannot be synced. -/
theorem reconcile_reports_failure_sample :
    let ended := ((HelmOperatorReconciler.failing settledResource).logged.reconcile plain
      ⟨"", "demo"⟩).run { world := { world := () } }
    ended.2.world.calls.getLast? = some ⟨.sync, .error {}, (), ()⟩ ∧ ended.1 = .error {} ∧
      LastStatus (Says .sync {}) ended.2 := by
  have hcalls : (((HelmOperatorReconciler.failing settledResource).logged.reconcile plain
      ⟨"", "demo"⟩).run { world := { world := () } }).2.world.calls = [⟨.sync, .error {}, (), ()⟩] := rfl
  exact reconcile_reports_failure (r := HelmOperatorReconciler.failing settledResource) (by decide) rfl
    (Prod.mk.eta).symm (by rw [hcalls]; exact List.mem_singleton_self _) rfl (fun hgone => nomatch hgone.1)

/-- **Successes**: a reconciliation that returns has asked for nothing; or the release is gone, and
then the object; or it has synced, an action has given a release, and the last body that is written is
a status that reports this release and no error. -/
theorem reconcile_reports_success (hsteps : r.steps ≠ 0) (hs : s.world.calls = []) {t : Time}
    (hrun : (r.logged.reconcile lib req).run s = (.ok t, s')) :
    (s'.world.calls = [] ∧ t = 0) ∨
    (∃ c, s'.world.calls = [c] ∧ c.Uninstalled ∧ t = 0 ∧
      ∃ w e, r.client.get req w = (.error e, s'.world.world) ∧ e.kind = .notFound) ∨
    ∃ c₁ c₂ release, s'.world.calls = [c₁, c₂] ∧ c₁.Synced ∧ c₂.outcome = .ok (some release) ∧
      t = r.reconcilePeriod ∧
      LastStatus (Reports (TypedRead r req s.world.world) c₂.call release) s' := by
  rcases (reconcile_course lib req _).of_run ⟨hs, rfl⟩ hrun with
    ⟨hcalls, -, ho⟩ | ⟨m, cr, w, w', -, -, hcourse, -⟩
  · exact Or.inl ⟨hcalls, ho t rfl⟩
  cases hcourse with
  | idle hcalls ho => exact Or.inl ⟨hcalls, ho t rfl⟩
  | failed _ _ _ _ ho => cases ho
  | uninstalled hcalls hc ho => exact Or.inr (Or.inl ⟨_, hcalls, hc, ho t rfl⟩)
  | unheld _ _ ho => exact absurd rfl (ho t)
  | acted hcalls h₁ _ hc₂ ho =>
      exact Or.inr (Or.inr ⟨_, _, _, hcalls, h₁, hc₂, (ho t rfl).1, (ho t rfl).2 hsteps⟩)

/-- The release is installed. -/
theorem reconcile_reports_success_sample :
    let ended := ((serving settledResource).logged.reconcile plain ⟨"", "demo"⟩).run
      { world := { world := false } }
    (ended.2.world.calls = [] ∧ (60 : Time) = 0) ∨
    (∃ c, ended.2.world.calls = [c] ∧ c.Uninstalled ∧ (60 : Time) = 0 ∧ ∃ w e,
      (serving settledResource).client.get ⟨"", "demo"⟩ w = (.error e, ended.2.world.world) ∧
        e.kind = .notFound) ∨
    ∃ c₁ c₂ release, ended.2.world.calls = [c₁, c₂] ∧ c₁.Synced ∧ c₂.outcome = .ok (some release) ∧
      (60 : Time) = (serving settledResource).reconcilePeriod ∧
      LastStatus (Reports (TypedRead (serving settledResource) ⟨"", "demo"⟩ false) c₂.call release) ended.2 := by
  have hrun : ((serving settledResource).logged.reconcile plain ⟨"", "demo"⟩).run
      { world := { world := false } } = (.ok 60, _) := rfl
  exact reconcile_reports_success (by decide) rfl hrun

end runs

end Powerful.Helm
