import Mathlib
import Powerful.ReconcileReports
import Powerful.SpecWrites

/-! # The finalizer

A resource whose release may be installed carries the operator's finalizer, so that the API server does
not let go of it before the release is uninstalled.

`Sound` says that no update has dropped the finalizer; everything that a reconciliation does keeps it
until the release manager has answered that the release is gone (`finalizer_guarded`).  `Held` says that
the object that the API server holds carries the finalizer; a reconciliation that has installed,
updated or looked after the release and succeeds ends with it (`finalizer_held`). -/

namespace Powerful.Helm

open Resumption HelmOperatorReconciler

/-! ### Resources -/

/-- The object has metadata. -/
def IsResource (o : Json) : Prop := ∃ fs, nested ["metadata"] o = some (.obj fs)

/-- What the helpers do to the metadata of a resource. -/
structure Finalizing (lib : Unstructured) : Prop where
  setNamespace : ∀ n o, IsResource o → IsResource (lib.setNamespace n o)
  addFinalizer : ∀ f o, IsResource o → IsResource (lib.addFinalizer f o)
  mem_addFinalizer : ∀ f o, IsResource o → f ∈ lib.getFinalizers (lib.addFinalizer f o)

/-- The API server has resources.  An update stores the finalizers that it is given, and a status
update leaves them alone. -/
structure Serves {ω : Type} (lib : Unstructured) (c : Client ω) : Prop where
  get : ∀ req w o w', c.get req w = (.ok o, w') → IsResource o
  update : ∀ stored o w o' w', c.update stored o w = (.ok o', w') → IsResource o.object →
    IsResource o' ∧ lib.getFinalizers o' = lib.getFinalizers o.object
  updateStatus : ∀ stored o w o' w', c.updateStatus stored o w = (.ok o', w') → IsResource stored →
    IsResource o' ∧ lib.getFinalizers o' = lib.getFinalizers stored

theorem IsResource.congr {o o' : Json} (h : IsResource o)
    (heq : nested ["metadata"] o' = nested ["metadata"] o) : IsResource o' := by
  unfold IsResource
  rw [heq]
  exact h

theorem isResource_of_nested {o v : Json} {k : String} {p : List String}
    (h : nested ("metadata" :: k :: p) o = some v) : IsResource o := by
  rw [show "metadata" :: k :: p = ["metadata"] ++ k :: p from rfl, nested_append] at h
  obtain ⟨j, hj, hk⟩ := Option.bind_eq_some_iff.mp h
  cases j with
  | obj fs => exact ⟨fs, hj⟩
  | _ => cases hk

section objects
variable (lib : Unstructured)

theorem IsResource.setText {o : Json} (h : IsResource o) (v k : String) (p : List String) :
    IsResource (setText lib v ("metadata" :: k :: p) o) := by
  unfold Helm.setText
  cases hset : lib.setNestedField (.str v) ("metadata" :: k :: p) o with
  | none => exact h
  | some o' => exact isResource_of_nested (lib.setNestedField_self _ _ _ _ hset)

theorem IsResource.setSpec {o : Json} (h : IsResource o) (v : String) (p : List String) :
    IsResource (Helm.setText lib v ("spec" :: p) o) :=
  h.congr (nested_setText_other lib o (by simp) (by simp))

theorem IsResource.inject {o : Json} (h : IsResource o) (istioEnv revision : String) :
    IsResource (inject lib istioEnv revision o) :=
  (((h.setSpec lib _ _).setText lib _ _ _).setSpec lib _ _).setText lib _ _ _

theorem getFinalizers_inject (istioEnv revision : String) (o : Json) :
    lib.getFinalizers (inject lib istioEnv revision o) = lib.getFinalizers o :=
  lib.getFinalizers_congr _ _ (nested_inject_other lib _ _ o (by decide))

theorem getFinalizers_setNamespace (ns : String) (o : Json) :
    lib.getFinalizers (lib.setNamespace ns o) = lib.getFinalizers o :=
  lib.getFinalizers_congr _ _ (nested_setNamespace lib ns _ _ o (by decide))

/-- The edit leaves all but the spec alone. -/
def OnSpec (f : Json → Json) : Prop :=
  ∀ k p o, k ≠ "spec" → nested (k :: p) (f o) = nested (k :: p) o

theorem onSpec_removeIstioEnv : OnSpec (removeIstioEnv lib) := by
  intro k p o hk
  unfold removeIstioEnv
  cases o with
  | obj fs =>
      simp only [nested]
      rw [Json.lookup_putField_ne hk]
  | _ => rfl

theorem onSpec_restoreIstioEnv (istioEnv : String) : OnSpec (restoreIstioEnv lib istioEnv) := by
  intro k p o hk
  unfold restoreIstioEnv
  split
  · exact nested_setText_other lib o (by simp [Ne.symm hk]) (by simp [hk])
  · rfl

theorem OnSpec.isResource {f : Json → Json} (hf : OnSpec f) {o : Json} (h : IsResource o) :
    IsResource (f o) := h.congr (hf _ _ o (by decide))

theorem OnSpec.getFinalizers {f : Json → Json} (hf : OnSpec f) (o : Json) :
    lib.getFinalizers (f o) = lib.getFinalizers o :=
  lib.getFinalizers_congr _ _ (hf _ _ o (by decide))

end objects

/-! ### Invariants behind the finalizer -/

variable {ω : Type}

/-- A property of the object, the stored one and the bodies written. -/
abbrev On (Q : Json → Json → List Write → Prop) (s : OpState ω) : Prop :=
  Q s.object.object s.stored s.writes

section invariants
variable (lib : Unstructured)

/-- The object and the stored one are resources, and no update has dropped the finalizer. -/
structure Sound (o o' : Json) (writes : List Write) : Prop where
  object : IsResource o
  stored : IsResource o'
  guarded : ∀ b ∈ writes, b.toStatus = false → finalizer ∈ lib.getFinalizers b.body.object

/-- The API server holds the finalizer. -/
structure Held (o o' : Json) (writes : List Write) : Prop extends Sound lib o o' writes where
  held : finalizer ∈ lib.getFinalizers o'

/-- The finalizers of the object are those of the stored one. -/
structure Agrees (o o' : Json) (writes : List Write) : Prop extends Sound lib o o' writes where
  agrees : lib.getFinalizers o = lib.getFinalizers o'

end invariants

/-- What edits of the spec keep, and status updates. -/
structure Steady (r : HelmOperatorReconciler ω) (Q : Json → Json → List Write → Prop) : Prop where
  edit : ∀ f, OnSpec f → ∀ o o' writes, Q o o' writes → Q (f o) o' writes
  sendStatus : Prog.Leads (On Q) (On Q) (r.send true)

namespace Steady
open Prog
variable {r : HelmOperatorReconciler ω} {Q : Json → Json → List Write → Prop} (h : Steady r Q)
  (lib : Unstructured) (m : Manager ω)

include h

theorem updateResourceStatus : Leads (On Q) (On Q) (r.updateResourceStatus lib) := by
  refine Leads.bind (Leads.read (fun _ hs => hs) _) fun istioEnv => ?_
  refine Leads.bind (Leads.modify fun _ => h.edit _ (onSpec_removeIstioEnv lib) _ _ _) fun _ => ?_
  refine Leads.bind (Leads.attempt (retryOnConflict_leads h.sendStatus _)) fun err => ?_
  refine Leads.bind (Leads.modify fun _ => h.edit _ (onSpec_restoreIstioEnv lib istioEnv) _ _ _)
    fun _ => ?_
  exact Leads.ofExcept (fun _ hs => hs) err

omit h in
theorem modifyStatus (f : HelmAppStatus → HelmAppStatus) :
    Leads (On Q) (On Q) (Helm.modifyStatus f : Op ω Unit) := Leads.modify fun _ hs => hs

omit h in
theorem setCondition (c : HelmAppCondition) : Leads (On Q) (On Q) (r.setCondition c) :=
  Leads.bind (Leads.atomic fun _ hs => hs) fun _ => modifyStatus _

theorem fail {α : Type} (type reason : String) (e : GoError) :
    Leads (On Q) (On Q) (r.fail lib type reason e : Op ω α) :=
  Leads.bind (setCondition _) fun _ =>
    Leads.bind (Leads.attempt (h.updateResourceStatus lib)) fun _ => Leads.throw (fun _ hs => hs) e

omit h in
theorem runHook (release : Release) : Leads (On Q) (On Q) (r.runHook release) := by
  unfold HelmOperatorReconciler.runHook
  cases r.releaseHook with
  | none => exact Leads.pure (fun _ hs => hs) ()
  | some hook => exact Leads.atomic fun _ hs => hs

theorem deployed (reason : String) (release : Release) :
    Leads (On Q) (On Q) (r.deployed lib reason release) :=
  Leads.bind (setCondition _) fun _ =>
    Leads.bind (modifyStatus _) fun _ =>
      Leads.bind (h.updateResourceStatus lib) fun _ => Leads.pure (fun _ hs => hs) _

theorem update : Leads (On Q) (On Q) (r.update lib m) := by
  refine Leads.bind (Leads.read (fun _ hs => hs) _) fun force => ?_
  refine Leads.bind (Leads.attempt (Leads.atomic fun _ hs => hs)) fun updated => ?_
  cases updated with
  | error e => exact h.fail lib _ _ e
  | ok release =>
      refine Leads.bind (modifyStatus _) fun _ => ?_
      refine Leads.bind (runHook release) fun _ => ?_
      exact h.deployed lib _ release

theorem reconcileRelease : Leads (On Q) (On Q) (r.reconcileRelease lib m) := by
  refine Leads.bind (modifyStatus _) fun _ => ?_
  refine Leads.bind (Leads.attempt (Leads.atomic fun _ hs => hs)) fun expected => ?_
  cases expected with
  | error e => exact h.fail lib _ _ e
  | ok release =>
      refine Leads.bind (modifyStatus _) fun _ => ?_
      refine Leads.bind (runHook release) fun _ => ?_
      refine Leads.bind (modifyStatus _) fun _ => ?_
      refine Leads.bind (h.updateResourceStatus lib) fun _ => ?_
      exact Leads.pure (fun _ hs => hs) _

end Steady

section steps
open Prog
variable {lib : Unstructured} {r : HelmOperatorReconciler ω}

/-- What a status update does to the object and the stored one. -/
theorem send_status_cases (hclient : Serves lib r.client) {s : OpState ω} (hs : On (Sound lib) s) :
    On (Sound lib) ((r.send true).run s).2 ∧
      lib.getFinalizers ((r.send true).run s).2.stored = lib.getFinalizers s.stored ∧
      (((r.send true).run s).2.object.object = s.object.object ∨
        ((r.send true).run s).2.object.object = ((r.send true).run s).2.stored) := by
  -- it is no update of the object
  have hguarded : ∀ b ∈ s.writes ++ [⟨true, { s.object with status := some s.status }⟩],
      b.toStatus = false → finalizer ∈ lib.getFinalizers b.body.object := by
    intro b hb hupdate
    rcases List.mem_append.mp hb with hb | hb
    · exact hs.guarded b hb hupdate
    · obtain rfl := List.mem_singleton.mp hb
      cases hupdate
  unfold send
  rw [run_atomic]
  simp only [if_true]
  split
  · exact ⟨⟨hs.object, hs.stored, hguarded⟩, rfl, Or.inl rfl⟩
  · rename_i o' w' hanswer
    obtain ⟨hresource, hfinalizers⟩ := hclient.updateStatus _ _ _ _ _ hanswer hs.stored
    exact ⟨⟨hresource, hresource, hguarded⟩, hfinalizers, Or.inr rfl⟩

theorem steady_sound (hclient : Serves lib r.client) : Steady r (Sound lib) where
  edit _ hf _ _ _ hs := ⟨hf.isResource hs.object, hs.stored, hs.guarded⟩
  sendStatus _ hs := (send_status_cases hclient hs).1

theorem steady_held (hclient : Serves lib r.client) : Steady r (Held lib) where
  edit f hf _ _ _ hs := ⟨(steady_sound hclient).edit f hf _ _ _ hs.toSound, hs.held⟩
  sendStatus s hs := by
    obtain ⟨hsound, hfinalizers, -⟩ := send_status_cases hclient hs.toSound
    refine ⟨hsound, ?_⟩
    rw [hfinalizers]
    exact hs.held

end steps

/-! ### Updates -/

section updates
open Prog

theorem withoutIstioEnv_ensures {I : OpState ω → Prop} {T : Except GoError Unit → OpState ω → Prop}
    (lib : Unstructured)
    (hI : ∀ f, OnSpec f → ∀ s, I s →
      I { s with object := { s.object with object := f s.object.object } })
    (hT : ∀ f, OnSpec f → ∀ o s, T o s →
      T o { s with object := { s.object with object := f s.object.object } })
    {p : Op ω Unit} (hp : Ensures I T p) : Ensures I T (withoutIstioEnv lib p) := by
  refine Ensures.readBind fun istioEnv => ?_
  refine Ensures.seq (K := fun _ => I)
    (Ensures.modify fun s hs => ⟨(), rfl, hI _ (onSpec_removeIstioEnv lib) s hs.1⟩) fun _ => ?_
  refine Ensures.attemptBind hp fun err => ?_
  refine Ensures.seq (K := fun _ => T err)
    (Ensures.modify fun s hs => ⟨(), rfl, hT _ (onSpec_restoreIstioEnv lib istioEnv) err s hs⟩) fun _ => ?_
  exact Ensures.ofExcept fun _ hs => hs

theorem retryOnConflict_ensures {I : OpState ω → Prop} {T : Except GoError Unit → OpState ω → Prop}
    {p : Op ω Unit} (hT : ∀ e s, T (.error e) s → I s) (hp : Ensures I T p) :
    ∀ n, n ≠ 0 → Ensures I T (retryOnConflict p n)
  | n + 1, _ => by
      refine Ensures.attemptBind hp fun err => ?_
      cases err with
      | ok u => exact Ensures.pure fun _ hs => hs
      | error e =>
          simp only
          split
          · rename_i hretry
            exact (retryOnConflict_ensures hT hp n hretry.2).weaken fun s hs => hT e s hs
          · exact Ensures.throw fun _ hs => hs

variable {lib : Unstructured} {r : HelmOperatorReconciler ω}

/-- The object carries the finalizer. -/
structure Carries (lib : Unstructured) (o o' : Json) (writes : List Write) : Prop extends
    Sound lib o o' writes where
  carries : finalizer ∈ lib.getFinalizers o

/-- Nothing is dropped; behind a value the API server holds the finalizer. -/
def Secured {α : Type} (lib : Unstructured) (o : Except GoError α) (s : OpState ω) : Prop :=
  On (Sound lib) s ∧ ∀ a, o = .ok a → On (Held lib) s

theorem Secured.bind {α β : Type} {I : OpState ω → Prop} {p : Op ω α} {f : α → Op ω β}
    (hp : Ensures I (Secured lib) p) (hf : ∀ a, Leads (On (Held lib)) (On (Held lib)) (f a)) :
    Ensures I (Secured lib) (p >>= f) := by
  refine Ensures.bind hp (fun a s hs => ?_) fun e s hs => ⟨hs.1, nofun⟩
  have hheld := hf a s (hs.2 a rfl)
  exact ⟨hheld.toSound, fun _ _ => hheld⟩

theorem secured_of_throw {α : Type} {p : Op ω α} {I : OpState ω → Prop} (hp : Leads I (On (Sound lib)) p)
    (hthrow : ∀ s, ∃ e, (p.run s).1 = .error e) : Ensures I (Secured lib) p := by
  refine fun s hs => ⟨hp s hs, fun a ha => ?_⟩
  obtain ⟨e, he⟩ := hthrow s
  rw [he] at ha
  cases ha

/-- An update of an object that carries the finalizer. -/
theorem send_update_ensures (hclient : Serves lib r.client) :
    Ensures (On (Carries lib)) (fun o s => On (Carries lib) s ∧ ∀ u, o = .ok u → On (Held lib) s)
      (r.send false) := by
  intro s hs
  have hguarded : ∀ b ∈ s.writes ++ [⟨false, s.object⟩],
      b.toStatus = false → finalizer ∈ lib.getFinalizers b.body.object := by
    intro b hb hupdate
    rcases List.mem_append.mp hb with hb | hb
    · exact hs.guarded b hb hupdate
    · obtain rfl := List.mem_singleton.mp hb
      exact hs.carries
  unfold send
  rw [run_atomic]
  simp only [Bool.false_eq_true, if_false]
  split
  · exact ⟨⟨⟨hs.object, hs.stored, hguarded⟩, hs.carries⟩, nofun⟩
  · rename_i o' w' hanswer
    obtain ⟨hresource, hfinalizers⟩ := hclient.update _ _ _ _ _ hanswer hs.object
    have hcarries : finalizer ∈ lib.getFinalizers o' := by
      rw [hfinalizers]
      exact hs.carries
    exact ⟨⟨⟨hresource, hresource, hguarded⟩, hcarries⟩, fun _ _ => ⟨⟨hresource, hresource, hguarded⟩,
      hcarries⟩⟩

theorem addFinalizer_secured (hlib : Finalizing lib) (hclient : Serves lib r.client)
    (hsteps : r.steps ≠ 0) : Ensures (On (Sound lib)) (Secured lib) (r.addFinalizer lib) := by
  refine Ensures.seq (K := fun _ => On (Carries lib)) (Ensures.modify fun s hs => ⟨(), rfl, ?_⟩)
    fun _ => ?_
  · exact ⟨⟨hlib.addFinalizer _ _ hs.object, hs.stored, hs.guarded⟩,
      hlib.mem_addFinalizer _ _ hs.object⟩
  have hedit : ∀ f, OnSpec f → ∀ s : OpState ω, On (Carries lib) s →
      On (Carries lib) { s with object := { s.object with object := f s.object.object } } := by
    intro f hf s hs
    refine ⟨⟨hf.isResource hs.object, hs.stored, hs.guarded⟩, ?_⟩
    rw [hf.getFinalizers]
    exact hs.carries
  have hupdate : Ensures (On (Carries lib))
      (fun o s => On (Carries lib) s ∧ ∀ u, o = .ok u → On (Held lib) s) (r.updateResource lib) :=
    withoutIstioEnv_ensures lib hedit
      (fun f hf o s hs => ⟨hedit f hf s hs.1, fun u hu =>
        (steady_held hclient).edit f hf _ _ _ (hs.2 u hu)⟩)
      (retryOnConflict_ensures (fun _ _ hs => hs.1) (send_update_ensures hclient) r.steps hsteps)
  exact hupdate.mono fun o s hs => ⟨hs.1.toSound, hs.2⟩

theorem ensureFinalizer_secured (hlib : Finalizing lib) (hclient : Serves lib r.client)
    (hsteps : r.steps ≠ 0) : Ensures (On (Agrees lib)) (Secured lib) (r.ensureFinalizer lib) := by
  refine Ensures.readBind fun finalizers => ?_
  split
  · exact (addFinalizer_secured hlib hclient hsteps).weaken fun s hs => hs.1.toSound
  · rename_i hmem
    refine Ensures.pure fun s ⟨hs, hfinalizers⟩ => ⟨hs.toSound, fun _ _ => ⟨hs.toSound, ?_⟩⟩
    rw [← hs.agrees, hfinalizers]
    exact not_not.mp hmem

theorem run_fail {α : Type} (type reason : String) (e : GoError) (s : OpState ω) :
    ∃ e', ((r.fail lib type reason e : Op ω α).run s).1 = .error e' := by
  refine ⟨e, ?_⟩
  have h : Ensures (fun _ => True) (fun o _ => o = .error e) (r.fail lib type reason e : Op ω α) := by
    refine Ensures.seq (K := fun _ _ => True) ?_ fun _ => ?_
    · exact Ensures.seq (K := fun _ _ => True) (Ensures.atomic fun _ _ => ⟨_, rfl, trivial⟩)
        fun _ => Ensures.modify fun _ _ => ⟨(), rfl, trivial⟩
    refine Ensures.attemptBind (T := fun _ _ => True) (fun _ _ => trivial) fun _ => ?_
    exact Ensures.throw fun _ _ => rfl
  exact h s trivial

theorem maintain_secured (hlib : Finalizing lib) (hclient : Serves lib r.client) (hsteps : r.steps ≠ 0)
    (m : Manager ω) : Ensures (On (Agrees lib)) (Secured lib) (r.maintain lib m) := by
  have hfail : ∀ type reason e,
      Ensures (On (Agrees lib)) (Secured lib) (r.fail lib type reason e : Op ω Time) :=
    fun type reason e => secured_of_throw
      (fun s hs => (steady_sound hclient).fail lib type reason e s hs.toSound) (run_fail type reason e)
  refine Ensures.bind (Leads.ensures (Steady.setCondition _)) (fun _ => ?_)
    fun e s hs => ⟨hs.toSound, nofun⟩
  refine Ensures.attemptBind (Ensures.atomic (Q := fun _ => On (Agrees lib)) fun _ hs => hs) fun synced => ?_
  cases synced with
  | error e => exact hfail _ _ e
  | ok u =>
      refine Ensures.seq (K := fun _ => On (Agrees lib)) (Ensures.modify fun s hs => ⟨(), rfl, hs⟩)
        fun _ => ?_
      refine Ensures.readBind fun installed => Ensures.weaken (I := On (Agrees lib)) ?_ fun s hs => hs.1
      cases installed with
      | false =>
          refine Ensures.attemptBind (Ensures.atomic (Q := fun _ => On (Agrees lib)) fun _ hs => hs) fun installed => ?_
          cases installed with
          | error e => exact hfail _ _ e
          | ok release =>
              refine Ensures.seq (K := fun _ => On (Agrees lib))
                (Ensures.modify fun s hs => ⟨(), rfl, hs⟩) fun _ => ?_
              refine Secured.bind ((addFinalizer_secured hlib hclient hsteps).weaken
                fun s hs => hs.toSound) fun _ => ?_
              exact Leads.bind (Steady.runHook release) fun _ => (steady_held hclient).deployed lib _ _
      | true =>
          refine Secured.bind (ensureFinalizer_secured hlib hclient hsteps) fun _ => ?_
          refine Leads.bind (Leads.read (fun _ hs => hs) _) fun required => ?_
          cases required with
          | true => exact (steady_held hclient).update lib m
          | false => exact (steady_held hclient).reconcileRelease lib m

end updates

/-! ### A whole reconciliation -/

section reconciliation
open Prog
variable {lib : Unstructured} {r : HelmOperatorReconciler ω} (req : Request)

theorem Serves.logged (h : Serves lib r.client) : Serves lib r.logged.client where
  get req w o w' hanswer := by
    have hgot : (r.client.get req w.world).1 = .ok o := congrArg Prod.fst hanswer
    exact h.get req w.world o _ (Prod.ext hgot rfl)
  update stored o w o' w' hanswer := by
    have hgot : (r.client.update stored o w.world).1 = .ok o' := congrArg Prod.fst hanswer
    exact h.update stored o w.world o' _ (Prod.ext hgot rfl)
  updateStatus stored o w o' w' hanswer := by
    have hgot : (r.client.updateStatus stored o w.world).1 = .ok o' := congrArg Prod.fst hanswer
    exact h.updateStatus stored o w.world o' _ (Prod.ext hgot rfl)

/-- No update has dropped the finalizer. -/
def Guarded (lib : Unstructured) (s : OpState ω) : Prop :=
  ∀ b ∈ s.writes, b.toStatus = false → finalizer ∈ lib.getFinalizers b.body.object

/-- What a reconciliation does to the finalizer. -/
structure Finalized (lib : Unstructured) (o : Except GoError Time) (s : OpState (Logged ω)) : Prop where
  guarded : Guarded lib s ∨ ∃ c, s.world.calls = [c] ∧ c.Uninstalled
  held : ∀ t, o = .ok t → ∀ c ∈ s.world.calls, c.call = .sync → finalizer ∈ lib.getFinalizers s.stored

theorem finalized_of_secured {o : Except GoError Time} {s : OpState (Logged ω)} (h : Secured lib o s) :
    Finalized lib o s := ⟨Or.inl h.1.guarded, fun t ht _ _ _ => (h.2 t ht).held⟩

theorem finalized_of_calls {o : Except GoError Time} {s : OpState (Logged ω)} {c : CallRecord ω}
    (hcalls : s.world.calls = [c]) (hc : c.Uninstalled) : Finalized lib o s := by
  refine ⟨Or.inr ⟨c, hcalls, hc⟩, fun t _ d hd hsync => ?_⟩
  rw [hcalls] at hd
  obtain rfl := List.mem_singleton.mp hd
  rw [hc.1] at hsync
  cases hsync

theorem uninstall_finalized (hclient : Serves lib r.client) (m : Manager ω) :
    Ensures (fun s => s.world.calls = [] ∧ On (Sound lib) s) (Finalized lib)
      (r.logged.uninstall lib req m.logged) := by
  refine Ensures.readBind fun finalizers => ?_
  split
  · refine Ensures.pure fun s ⟨⟨hcalls, hs⟩, _⟩ => ⟨Or.inl hs.guarded, fun _ _ c hc _ => ?_⟩
    rw [hcalls] at hc
    cases hc
  refine Ensures.attemptBind (((asks (P := fun _ => True) (T := fun _ => True)).weaken
    fun s hs => ⟨hs.1.1, trivial, trivial⟩).and
      (Ensures.atomic (Q := fun _ => On (Sound lib)) fun _ hs => hs.1.2)) fun uninstalled => ?_
  by_cases hall : ∀ e, uninstalled = .error e → e.kind = .releaseNotFound
  · rintro s ⟨⟨c, ⟨hcall, houtcome, -⟩, hcalls, -⟩, -⟩
    have hc : c.Uninstalled := by
      refine ⟨hcall, fun e he => ?_⟩
      rw [houtcome] at he
      cases uninstalled with
      | ok release => cases he
      | error e' =>
          obtain rfl := Except.error.inj he
          exact hall _ rfl
    have h := calls_ambient r fun calls => calls = [c]
    have hleads : Leads (fun s => s.world.calls = [c]) (fun s => s.world.calls = [c]) (do
        r.logged.uninstalled lib uninstalled
        r.logged.updateResourceStatus lib
        modifyObject (lib.removeFinalizer finalizer)
        r.logged.updateResource lib
        r.logged.waitForDeletion req r.logged.polls
        .pure (0 : Time)) :=
      Leads.bind (h.uninstalled lib uninstalled) fun _ =>
        Leads.bind (h.updateResourceStatus lib) fun _ =>
          Leads.bind (h.modifyObject _) fun _ =>
            Leads.bind (h.updateResource lib) fun _ =>
              Leads.bind (h.waitForDeletion req _) fun _ => Leads.pure (fun _ hs => hs) _
    exact finalized_of_calls (hleads s hcalls) hc
  · obtain ⟨e, rfl, hkind⟩ : ∃ e, uninstalled = .error e ∧ e.kind ≠ .releaseNotFound := by
      simpa using hall
    refine Ensures.bind (T := fun o s => (∃ e, o = .error e) ∧ On (Sound lib) s) ?_ ?_ ?_
    · intro s hs
      unfold HelmOperatorReconciler.uninstalled
      simp only [hkind, ne_eq, not_false_eq_true, if_true]
      exact ⟨run_fail _ _ e s, (steady_sound hclient.logged).fail lib _ _ e s hs.2⟩
    · rintro u s ⟨⟨e, he⟩, -⟩
      cases he
    · exact fun e s hs => ⟨Or.inl hs.2.guarded, nofun⟩

theorem manage_finalized (hlib : Finalizing lib) (hclient : Serves lib r.client) (hsteps : r.steps ≠ 0) :
    Ensures (fun s => s.world.calls = [] ∧ On (Agrees lib) s) (Finalized lib)
      (r.logged.manage lib req) := by
  refine Ensures.readBind fun cr => ?_
  refine Ensures.bind (T := fun o s => (s.world.calls = [] ∧ On (Agrees lib) s) ∧
    ∀ mgr, o = .ok mgr → ∃ m : Manager ω, mgr = m.logged) ?_ (fun mgr => ?_) ?_
  · refine Ensures.atomic fun s hs => ⟨hs.1, fun mgr hmgr => ?_⟩
    obtain ⟨m, hm, -⟩ := logged_newManager hmgr
    exact ⟨m, hm⟩
  · rintro s ⟨hs, hmgr⟩
    obtain ⟨m, rfl⟩ := hmgr mgr rfl
    refine Ensures.seq (I := fun s => s.world.calls = [] ∧ On (Agrees lib) s)
      (K := fun _ s => s.world.calls = [] ∧ On (Agrees lib) s)
      (Ensures.modify fun s hs => ⟨(), rfl, hs⟩) (fun _ => ?_) s hs
    refine Ensures.readBind fun deletionTimestamp => ?_
    cases deletionTimestamp with
    | some time =>
        exact (uninstall_finalized req hclient m).weaken fun s hs => ⟨hs.1.1, hs.1.2.toSound⟩
    | none =>
        exact ((maintain_secured hlib hclient.logged hsteps m.logged).mono
          fun _ _ h => finalized_of_secured h).weaken fun s hs => hs.1.2
  · refine fun e s hs => ⟨Or.inl hs.1.2.guarded, nofun⟩

theorem setupNamespaceAndIstioEnv_agrees (hlib : Finalizing lib) :
    Leads (fun s : OpState (Logged ω) => s.world.calls = [] ∧ On (Agrees lib) s)
      (fun s => s.world.calls = [] ∧ On (Agrees lib) s)
      (r.logged.setupNamespaceAndIstioEnv lib req) := by
  refine Leads.bind (Leads.modify fun s hs => ⟨hs.1, ?_⟩) fun _ => ?_
  · exact ⟨⟨hlib.setNamespace _ _ hs.2.object, hs.2.stored, hs.2.guarded⟩,
      (getFinalizers_setNamespace lib _ _).trans hs.2.agrees⟩
  refine Leads.bind (Leads.read (fun _ hs => hs) _) fun env => ?_
  refine Leads.bind (Leads.modify fun s hs => ⟨hs.1, ?_⟩) fun _ => ?_
  · exact ⟨⟨hs.2.object.inject lib _ _, hs.2.stored, hs.2.guarded⟩,
      (getFinalizers_inject lib _ _ _).trans hs.2.agrees⟩
  refine Leads.bind (Leads.atomic fun _ hs => hs) fun _ => ?_
  exact Leads.pure (fun _ hs => hs) ()

theorem reconcile_finalized (hlib : Finalizing lib) (hclient : Serves lib r.client)
    (hsteps : r.steps ≠ 0) :
    Ensures (fun s => s.world.calls = [] ∧ s.writes = []) (Finalized lib)
      (r.logged.reconcile lib req) := by
  have hidle : ∀ {o : Except GoError Time} {s : OpState (Logged ω)}, s.world.calls = [] →
      Guarded lib s → Finalized lib o s := fun {o s} hcalls hguarded => by
    refine ⟨Or.inl hguarded, fun _ _ c hc => ?_⟩
    rw [hcalls] at hc
    cases hc
  have hempty : ∀ {s : OpState (Logged ω)}, s.writes = [] → Guarded lib s := fun {s} hs b hb => by
    rw [hs] at hb
    cases hb
  refine Ensures.attemptBind (T := fun found s => (s.world.calls = [] ∧ s.writes = []) ∧
    ∀ o, found = .ok o → IsResource o) ?_ fun found => ?_
  · exact Ensures.atomic fun s hs => ⟨hs, fun o ho => hclient.logged.get req s.world o _ (Prod.ext ho rfl)⟩
  cases found with
  | error e =>
      simp only
      split
      · exact Ensures.pure fun s hs => hidle hs.1.1 (hempty hs.1.2)
      · exact Ensures.throw fun s hs => hidle hs.1.1 (hempty hs.1.2)
  | ok o =>
      refine Ensures.seq (K := fun _ s => s.world.calls = [] ∧ On (Agrees lib) s)
        (Ensures.modify fun s hs => ⟨(), rfl, hs.1.1, ?_⟩) fun _ => ?_
      · exact ⟨⟨hs.2 o rfl, hs.2 o rfl, hempty (s := s) hs.1.2⟩, rfl⟩
      · exact Ensures.bind (setupNamespaceAndIstioEnv_agrees req hlib).ensures
          (fun _ => manage_finalized req hlib hclient hsteps)
          fun e s hs => hidle hs.1 hs.2.guarded

end reconciliation

/-! ### Any run -/

theorem mapM_textOf : ∀ fs : List String, (fs.map Json.str).mapM textOf = some fs
  | [] => rfl
  | f :: fs => by
      rw [List.map_cons, List.mapM_cons, mapM_textOf fs]
      rfl

/-- The helpers on plain trees add a finalizer to a resource. -/
theorem finalizing_plain : Finalizing plain where
  setNamespace n o h := by
    show IsResource ((setNested _ ["metadata", "namespace"] o).getD o)
    cases hset : setNested (.str n) ["metadata", "namespace"] o with
    | none => exact h
    | some o' => exact isResource_of_nested (setNested_self _ _ _ _ hset)
  addFinalizer f o h := by
    show IsResource (if f ∈ finalizersOf o then o else withFinalizers (finalizersOf o ++ [f]) o)
    split
    · exact h
    · unfold withFinalizers
      cases hset : setNested (.arr ((finalizersOf o ++ [f]).map .str)) ["metadata", "finalizers"] o with
      | none => exact h
      | some o' => exact isResource_of_nested (setNested_self _ _ _ _ hset)
  mem_addFinalizer f o h := by
    show f ∈ finalizersOf (if f ∈ finalizersOf o then o else withFinalizers (finalizersOf o ++ [f]) o)
    split
    · assumption
    obtain ⟨fs, hfs⟩ := h
    have hsome : (setNested (.arr ((finalizersOf o ++ [f]).map .str)) ["metadata", "finalizers"] o).isSome := by
      refine setNested_isSome _ _ o fun q j hq hne hj => ?_
      rw [List.prefix_cons_iff] at hq
      rcases hq with rfl | ⟨q', rfl, hq'⟩
      · cases o with
        | obj gs => exact ⟨gs, (Option.some.inj hj).symm⟩
        | _ => cases hfs
      · rw [List.prefix_cons_iff] at hq'
        rcases hq' with rfl | ⟨q'', rfl, hq''⟩
        · exact ⟨fs, Option.some.inj (hj.symm.trans hfs)⟩
        · rw [List.prefix_nil] at hq''
          rw [hq''] at hne
          exact absurd rfl hne
    obtain ⟨o', ho'⟩ := Option.isSome_iff_exists.mp hsome
    have hself := setNested_self _ _ _ _ ho'
    unfold withFinalizers
    rw [ho', Option.getD_some, finalizersOf, hself]
    simp only
    rw [mapM_textOf, Option.getD_some]
    exact List.mem_append_right _ (List.mem_singleton_self f)

theorem serves_serving {o : Json} (ho : IsResource o) : Serves plain (serving o).client where
  get := by
    rintro req w o' w' ⟨⟩
    exact ho
  update := by
    rintro stored o' w o'' w' ⟨⟩ hresource
    exact ⟨hresource, rfl⟩
  updateStatus := by
    rintro stored o' w o'' w' ⟨⟩ hresource
    exact ⟨hresource, rfl⟩

/-- A resource that is being deleted. -/
def deletedResource : Json :=
  .obj [("metadata", .obj [("deletionTimestamp", .str "now"),
    ("finalizers", .arr [.str "other", .str "uninstall-helm-release"])]), ("spec", .obj [])]

section runs
variable {lib : Unstructured} {r : HelmOperatorReconciler ω} {req : Request}
  {s s' : OpState (Logged ω)} {o : Except GoError Time}

/-- **The finalizer is guarded**: whatever the world does, an update without the finalizer is written
only if the release manager was asked to uninstall the release and has answered that it has, or that
there is none. -/
theorem finalizer_guarded (hlib : Finalizing lib) (hclient : Serves lib r.client) (hsteps : r.steps ≠ 0)
    (hs : s.world.calls = [] ∧ s.writes = []) (hrun : (r.logged.reconcile lib req).run s = (o, s'))
    {b : Write} (hb : b ∈ s'.writes) (hupdate : b.toStatus = false)
    (hdropped : finalizer ∉ lib.getFinalizers b.body.object) :
    ∃ c, s'.world.calls = [c] ∧ c.Uninstalled := by
  rcases ((reconcile_finalized req hlib hclient hsteps).of_run hs hrun).guarded with hguarded | hgone
  · exact absurd (hguarded b hb hupdate) hdropped
  · exact hgone

/-- The release of a resource that is being deleted. -/
theorem finalizer_guarded_sample :
    ∃ c, (((serving deletedResource).logged.reconcile plain ⟨"", "demo"⟩).run
      { world := { world := true } }).2.world.calls = [c] ∧ c.Uninstalled := by
  have hwrites : ∃ b ∈ (((serving deletedResource).logged.reconcile plain ⟨"", "demo"⟩).run
      { world := { world := true } }).2.writes, b.toStatus = false ∧
      finalizer ∉ plain.getFinalizers b.body.object := by
    refine ⟨_, List.mem_cons_of_mem _ (List.mem_singleton_self _), rfl, ?_⟩
    decide +kernel
  obtain ⟨b, hb, hupdate, hdropped⟩ := hwrites
  exact finalizer_guarded finalizing_plain (serves_serving ⟨_, rfl⟩) (by decide) ⟨rfl, rfl⟩
    (Prod.mk.eta).symm hb hupdate hdropped

/-- **The finalizer is held**: where a reconciliation has synced and returns, the object that the API
server holds carries the finalizer. -/
theorem finalizer_held (hlib : Finalizing lib) (hclient : Serves lib r.client) (hsteps : r.steps ≠ 0)
    (hs : s.world.calls = [] ∧ s.writes = []) {t : Time}
    (hrun : (r.logged.reconcile lib req).run s = (.ok t, s')) {c : CallRecord ω}
    (hc : c ∈ s'.world.calls) (hsync : c.call = .sync) : finalizer ∈ lib.getFinalizers s'.stored :=
  ((reconcile_finalized req hlib hclient hsteps).of_run hs hrun).held t rfl c hc hsync

theorem finalizer_held_sample :
    finalizer ∈ plain.getFinalizers (((serving settledResource).logged.reconcile plain
      ⟨"", "demo"⟩).run { world := { world := false } }).2.stored := by
  have hrun : ((serving settledResource).logged.reconcile plain ⟨"", "demo"⟩).run
      { world := { world := false } } = (.ok 60, _) := rfl
  have hcalls : (((serving settledResource).logged.reconcile plain ⟨"", "demo"⟩).run
      { world := { world := false } }).2.world.calls =
        [⟨.sync, .ok none, false, false⟩,
          ⟨.installRelease, .ok (some ⟨"demo", "m", some "enjoy"⟩), false, true⟩] := rfl
  exact finalizer_held finalizing_plain (serves_serving ⟨_, rfl⟩) (by decide) ⟨rfl, rfl⟩ hrun
    (by rw [hcalls]; exact List.mem_cons_self) rfl

end runs

end Powerful.Helm
