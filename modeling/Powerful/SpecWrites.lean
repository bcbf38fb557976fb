import Mathlib
import Powerful.Reconcile

/-! # The spec that a reconciliation writes

`withoutIstioEnv` takes back one of the two fields that `inject` puts into the spec.  So the
bodies that are written carry the spec as it was read exactly if that spec has no `istioEnv`
and has, as its `revision`, the revision that the labels name; or if nothing is written at all,
because the resource is being deleted and has no finalizer (`bodies_iff`).

The invariants are `Bare` (inside `withoutIstioEnv`: the object carries the spec) and
`Injected` (outside: it does so up to `istioEnv`); both say that the stored object and the
bodies so far carry it. -/

namespace Powerful.Helm

open Resumption Prog

/-! ### Specs -/

theorem nested_append (p q : List String) : ∀ o, nested (p ++ q) o = (nested p o).bind (nested q) := by
  induction p with
  | nil => exact fun o => rfl
  | cons k p ih =>
      intro o
      cases o with
      | obj fs =>
          show (fs.lookup k).bind (nested (p ++ q)) = ((fs.lookup k).bind (nested p)).bind (nested q)
          rw [Option.bind_assoc]
          exact congrArg (fs.lookup k).bind (funext ih)
      | _ => rfl

theorem spec_congr {o o' : Json} (h : nested ["spec"] o' = nested ["spec"] o) : spec o' = spec o := by
  unfold spec
  rw [h]

theorem spec_some {o : Json} {f : String → Option Json} (h : spec o = some f) :
    ∃ fs, nested ["spec"] o = some (.obj fs) ∧ f = fun k => fs.lookup k := by
  unfold spec at h
  split at h
  · rename_i fs hfs
    exact ⟨fs, hfs, (Option.some.inj h).symm⟩
  · cases h

theorem nested_spec {o : Json} {f : String → Option Json} (h : spec o = some f) (k : String) :
    nested ["spec", k] o = f k := by
  obtain ⟨fs, hfs, rfl⟩ := spec_some h
  rw [show ["spec", k] = ["spec"] ++ [k] from rfl, nested_append, hfs]
  show (fs.lookup k).bind some = fs.lookup k
  cases fs.lookup k <;> rfl

theorem object_of_spec {o : Json} {f : String → Option Json} (h : spec o = some f) :
    ∃ fs, o = .obj fs := by
  obtain ⟨fs, hfs, -⟩ := spec_some h
  cases o with
  | obj gs => exact ⟨gs, rfl⟩
  | _ => cases hfs

theorem spec_of_nested {o : Json} {f : String → Option Json} {k : String} {v : Json}
    (hv : nested ["spec", k] o = some v) (h : ∀ l, nested ["spec", l] o = f l) : spec o = some f := by
  rw [show ["spec", k] = ["spec"] ++ [k] from rfl, nested_append] at hv
  obtain ⟨j, hj, hk⟩ := Option.bind_eq_some_iff.mp hv
  cases j with
  | obj fs =>
      have hspec : spec o = some fun k => fs.lookup k := by
        unfold spec
        rw [hj]
      rw [hspec]
      refine congrArg some (funext fun l => ?_)
      rw [← h l, nested_spec hspec l]
  | _ => cases hk

section settings
variable (lib : Unstructured)

/-- A text set into the spec. -/
theorem spec_setText {o : Json} {f : String → Option Json} (h : spec o = some f) (v k : String) :
    spec (setText lib v ["spec", k] o) = some (Function.update f k (some (.str v))) := by
  obtain ⟨fs, hfs, -⟩ := spec_some h
  obtain ⟨gs, rfl⟩ := object_of_spec h
  have hsome : (lib.setNestedField (.str v) ["spec", k] (.obj gs)).isSome := by
    refine lib.setNestedField_isSome _ _ _ (by simp) fun q j hq hne hj => ?_
    rw [List.prefix_cons_iff] at hq
    rcases hq with rfl | ⟨q', rfl, hq'⟩
    · exact ⟨gs, (Option.some.inj hj).symm⟩
    · rw [List.prefix_cons_iff] at hq'
      rcases hq' with rfl | ⟨q'', rfl, hq''⟩
      · rw [hfs] at hj
        exact ⟨fs, (Option.some.inj hj).symm⟩
      · rw [List.prefix_nil] at hq''
        rw [hq''] at hne
        exact absurd rfl hne
  obtain ⟨o', ho'⟩ := Option.isSome_iff_exists.mp hsome
  have hself := lib.setNestedField_self _ _ _ _ ho'
  unfold setText
  rw [ho', Option.getD_some]
  refine spec_of_nested hself fun l => ?_
  by_cases hl : l = k
  · rw [hl, hself, Function.update_self]
  · rw [lib.setNestedField_other _ _ _ _ ["spec", l] ho' (by simp [Ne.symm hl]) (by simp [hl]),
      nested_spec h l, Function.update_of_ne hl]

theorem nested_setText_other {v : String} {p q : List String} (o : Json) (h : ¬ p <+: q)
    (h' : ¬ q <+: p) : nested q (setText lib v p o) = nested q o := by
  unfold setText
  cases hset : lib.setNestedField (.str v) p o with
  | none => rfl
  | some o' => exact lib.setNestedField_other _ _ _ _ q hset h h'

/-- A text set elsewhere. -/
theorem spec_setText_metadata (v : String) (p : List String) (o : Json) :
    spec (setText lib v ("metadata" :: p) o) = spec o :=
  spec_congr (nested_setText_other lib o (by simp) (by simp))

/-- What the injection does to the spec. -/
theorem spec_inject {o : Json} {f : String → Option Json} (h : spec o = some f)
    (istioEnv revision : String) :
    spec (inject lib istioEnv revision o) = some (Function.update
      (Function.update f "istioEnv" (some (.str (if revision ≠ "" then "" else istioEnv))))
      "revision" (some (.str revision))) := by
  unfold inject
  simp only [spec_setText_metadata]
  apply spec_setText
  rw [spec_setText_metadata]
  exact spec_setText lib h _ _

theorem nested_inject_other (istioEnv revision : String) (o : Json) {k : String} (hk : k ≠ "labels") :
    nested ["metadata", k] (inject lib istioEnv revision o) = nested ["metadata", k] o := by
  unfold inject
  simp only
  rw [nested_setText_other lib _ (by simp [Ne.symm hk]) (by simp [hk]),
    nested_setText_other lib _ (by simp) (by simp),
    nested_setText_other lib _ (by simp [Ne.symm hk]) (by simp [hk]),
    nested_setText_other lib _ (by simp) (by simp)]

theorem lookup_without (k l : String) (fs : Fields) :
    (fs.filter (fun f => f.1 ≠ k)).lookup l = if l = k then none else fs.lookup l := by
  induction fs with
  | nil => simp
  | cons e fs ih =>
      obtain ⟨m, v⟩ := e
      by_cases hm : m = k
      · rw [List.filter_cons_of_neg (by simp [hm]), ih]
        split
        · rfl
        · rename_i hl
          rw [Json.lookup_cons_ne (by rw [hm]; exact hl)]
      · rw [List.filter_cons_of_pos (by simp [hm])]
        by_cases hl : l = m
        · rw [hl, Json.lookup_cons_self, Json.lookup_cons_self, if_neg hm]
        · rw [Json.lookup_cons_ne hl, Json.lookup_cons_ne hl, ih]

/-- What the removal does to the spec. -/
theorem spec_removeIstioEnv {o : Json} {f : String → Option Json} (h : spec o = some f) :
    spec (removeIstioEnv lib o) = some (Function.update f "istioEnv" none) := by
  obtain ⟨fs, hfs, rfl⟩ := spec_some h
  obtain ⟨gs, rfl⟩ := object_of_spec h
  unfold removeIstioEnv
  simp only [lib.nestedMap_eq, hfs]
  have hnested : nested ["spec"] (.obj (Json.putField "spec"
      (.obj (fs.filter fun f => f.1 ≠ "istioEnv")) gs)) =
        some (.obj (fs.filter fun f => f.1 ≠ "istioEnv")) := by
    show ((Json.putField "spec" _ gs).lookup "spec").bind some = _
    rw [Json.lookup_putField_self, Option.bind_some]
  have hspec : spec (.obj (Json.putField "spec" (.obj (fs.filter fun f => f.1 ≠ "istioEnv")) gs)) =
      some fun k => (fs.filter fun f => f.1 ≠ "istioEnv").lookup k := by
    unfold spec
    rw [hnested]
  refine hspec.trans ?_
  refine congrArg some (funext fun k => ?_)
  rw [lookup_without]
  by_cases hk : k = "istioEnv"
  · rw [if_pos hk, hk, Function.update_self]
  · rw [if_neg hk, Function.update_of_ne hk]

theorem spec_restoreIstioEnv {o : Json} {f : String → Option Json} (h : spec o = some f)
    (istioEnv : String) : ∃ g, spec (restoreIstioEnv lib istioEnv o) = some g ∧
      ∀ k, k ≠ "istioEnv" → g k = f k := by
  unfold restoreIstioEnv
  split
  · exact ⟨_, spec_setText lib h _ _, fun k hk => Function.update_of_ne hk _ _⟩
  · exact ⟨f, h, fun _ _ => rfl⟩

end settings

/-! ### Writes -/

variable {ω : Type}

/-- The stored object and the bodies so far carry the spec `f`. -/
def Served (f : String → Option Json) (s : OpState ω) : Prop :=
  spec s.stored = some f ∧ ∀ w ∈ s.writes, spec w.body.object = some f

/-- So does the object. -/
def Bare (f : String → Option Json) (s : OpState ω) : Prop :=
  spec s.object.object = some f ∧ Served f s

/-- So does the object, up to the environment. -/
def Injected (f : String → Option Json) (s : OpState ω) : Prop :=
  (∃ g, spec s.object.object = some g ∧ ∀ k, k ≠ "istioEnv" → g k = f k) ∧ Served f s

theorem run_readObject {α : Type} (h : Json → α) (s : OpState ω) :
    (readObject h).run s = (.ok (h s.object.object), s) := rfl

theorem run_modifyStatus (h : HelmAppStatus → HelmAppStatus) (s : OpState ω) :
    (modifyStatus h : Op ω Unit).run s = (.ok (), { s with status := h s.status }) := rfl

section writes
variable {f : String → Option Json}

theorem modifyObject_leads {h : Json → Json} (hspec : ∀ o, spec (h o) = spec o) :
    Leads (Injected f) (Injected f) (modifyObject h : Op ω Unit) := by
  refine Leads.modify fun s hs => ?_
  obtain ⟨⟨g, hg, hgf⟩, hserved⟩ := hs
  exact ⟨⟨g, (hspec _).trans hg, hgf⟩, hserved⟩

theorem modifyStatus_leads (h : HelmAppStatus → HelmAppStatus) :
    Leads (Injected f) (Injected f) (modifyStatus h : Op ω Unit) :=
  Leads.modify fun _ hs => hs

theorem ask_leads {α : Type} (h : ω → Except GoError α × ω) :
    Leads (Injected f) (Injected f) (ask h) := Leads.atomic fun _ hs => hs

theorem send_leads (r : HelmOperatorReconciler ω) (toStatus : Bool) :
    Leads (Bare f) (Bare f) (r.send toStatus) := by
  refine Leads.atomic fun s hs => ?_
  obtain ⟨hobject, hstored, hwrites⟩ := hs
  have hbodies : ∀ o : CustomResource, spec o.object = some f →
      ∀ w ∈ s.writes ++ [⟨toStatus, o⟩], spec w.body.object = some f := by
    intro o ho w hw
    rcases List.mem_append.mp hw with hw | hw
    · exact hwrites w hw
    · rw [List.mem_singleton.mp hw]
      exact ho
  cases toStatus with
  | false =>
      simp only [Bool.false_eq_true, if_false]
      split
      · exact ⟨hobject, hstored, hbodies _ hobject⟩
      · rename_i o' w' hanswer
        have hspec := (r.client.update_spec _ _ _ _ _ hanswer).trans hobject
        exact ⟨hspec, hspec, hbodies _ hobject⟩
  | true =>
      simp only [if_true]
      split
      · exact ⟨hobject, hstored, hbodies _ hobject⟩
      · rename_i o' w' hanswer
        have hspec := (r.client.updateStatus_spec _ _ _ _ _ hanswer).trans hstored
        exact ⟨hspec, hspec, hbodies _ hobject⟩

/-- Around a write the environment is taken out of the object and put back. -/
theorem withoutIstioEnv_leads (lib : Unstructured) (hf : f "istioEnv" = none) {p : Op ω Unit}
    (h : Leads (Bare f) (Bare f) p) : Leads (Injected f) (Injected f) (withoutIstioEnv lib p) := by
  refine Leads.bind (Leads.read (fun _ hs => hs) _) fun istioEnv => ?_
  refine Leads.bindVia (K := Bare f) (Leads.modify fun s hs => ?_) (fun _ => ?_) fun s hs =>
    ⟨⟨f, hs.1, fun _ _ => rfl⟩, hs.2⟩
  · obtain ⟨⟨g, hg, hgf⟩, hserved⟩ := hs
    refine ⟨(spec_removeIstioEnv lib hg).trans (congrArg some (funext fun k => ?_)), hserved⟩
    by_cases hk : k = "istioEnv"
    · rw [hk, Function.update_self, hf]
    · rw [Function.update_of_ne hk, hgf k hk]
  · refine Leads.bindVia (K := Bare f) (Leads.attempt h) (fun err => ?_) fun s hs =>
      ⟨⟨f, hs.1, fun _ _ => rfl⟩, hs.2⟩
    refine Leads.bindVia (K := Injected f) (Leads.modify fun s hs => ?_)
      (fun _ => Leads.ofExcept (fun _ hs => hs) err) fun _ hs => hs
    exact ⟨spec_restoreIstioEnv lib hs.1 istioEnv, hs.2⟩

end writes

namespace HelmOperatorReconciler
variable (lib : Unstructured) (r : HelmOperatorReconciler ω) {f : String → Option Json}
  (hf : f "istioEnv" = none)

include hf

theorem updateResource_leads : Leads (Injected f) (Injected f) (r.updateResource lib) :=
  withoutIstioEnv_leads lib hf (retryOnConflict_leads (send_leads r false) r.steps)

theorem updateResourceStatus_leads : Leads (Injected f) (Injected f) (r.updateResourceStatus lib) :=
  withoutIstioEnv_leads lib hf (retryOnConflict_leads (send_leads r true) r.steps)

omit hf in
theorem setCondition_leads (c : HelmAppCondition) :
    Leads (Injected f) (Injected f) (r.setCondition c) :=
  Leads.bind (ask_leads _) fun _ => modifyStatus_leads _

omit hf in
theorem runHook_leads (release : Release) : Leads (Injected f) (Injected f) (r.runHook release) := by
  unfold runHook
  cases r.releaseHook with
  | none => exact Leads.pure (fun _ hs => hs) ()
  | some hook => exact ask_leads _

theorem fail_leads {α : Type} (type reason : String) (e : GoError) :
    Leads (Injected f) (Injected f) (r.fail lib type reason e : Op ω α) := by
  refine Leads.bind (r.setCondition_leads _) fun _ => ?_
  refine Leads.bind (Leads.attempt (r.updateResourceStatus_leads lib hf)) fun _ => ?_
  exact Leads.throw (fun _ hs => hs) e

theorem deployed_leads (reason : String) (release : Release) :
    Leads (Injected f) (Injected f) (r.deployed lib reason release) := by
  refine Leads.bind (r.setCondition_leads _) fun _ => ?_
  refine Leads.bind (modifyStatus_leads _) fun _ => ?_
  refine Leads.bind (r.updateResourceStatus_leads lib hf) fun _ => ?_
  exact Leads.pure (fun _ hs => hs) _

theorem addFinalizer_leads : Leads (Injected f) (Injected f) (r.addFinalizer lib) := by
  refine Leads.bind (modifyObject_leads fun o => ?_) fun _ => r.updateResource_leads lib hf
  exact spec_congr (lib.addFinalizer_other _ _ _ (by decide))

theorem ensureFinalizer_leads : Leads (Injected f) (Injected f) (r.ensureFinalizer lib) := by
  refine Leads.bind (Leads.read (fun _ hs => hs) _) fun finalizers => ?_
  split
  · exact r.addFinalizer_leads lib hf
  · exact Leads.pure (fun _ hs => hs) ()

theorem install_leads (manager : Manager ω) :
    Leads (Injected f) (Injected f) (r.install lib manager) := by
  refine Leads.bind (Leads.attempt (ask_leads _)) fun installed => ?_
  cases installed with
  | error e => exact r.fail_leads lib hf _ _ e
  | ok release =>
      refine Leads.bind (modifyStatus_leads _) fun _ => ?_
      refine Leads.bind (r.addFinalizer_leads lib hf) fun _ => ?_
      refine Leads.bind (r.runHook_leads release) fun _ => ?_
      exact r.deployed_leads lib hf _ release

theorem update_leads (manager : Manager ω) :
    Leads (Injected f) (Injected f) (r.update lib manager) := by
  refine Leads.bind (Leads.read (fun _ hs => hs) _) fun force => ?_
  refine Leads.bind (Leads.attempt (ask_leads _)) fun updated => ?_
  cases updated with
  | error e => exact r.fail_leads lib hf _ _ e
  | ok release =>
      refine Leads.bind (modifyStatus_leads _) fun _ => ?_
      refine Leads.bind (r.runHook_leads release) fun _ => ?_
      exact r.deployed_leads lib hf _ release

theorem reconcileRelease_leads (manager : Manager ω) :
    Leads (Injected f) (Injected f) (r.reconcileRelease lib manager) := by
  refine Leads.bind (modifyStatus_leads _) fun _ => ?_
  refine Leads.bind (Leads.attempt (ask_leads _)) fun expected => ?_
  cases expected with
  | error e => exact r.fail_leads lib hf _ _ e
  | ok release =>
      refine Leads.bind (modifyStatus_leads _) fun _ => ?_
      refine Leads.bind (r.runHook_leads release) fun _ => ?_
      refine Leads.bind (modifyStatus_leads _) fun _ => ?_
      refine Leads.bind (r.updateResourceStatus_leads lib hf) fun _ => ?_
      exact Leads.pure (fun _ hs => hs) _

theorem maintain_leads (manager : Manager ω) :
    Leads (Injected f) (Injected f) (r.maintain lib manager) := by
  refine Leads.bind (r.setCondition_leads _) fun _ => ?_
  refine Leads.bind (Leads.attempt (ask_leads _)) fun synced => ?_
  cases synced with
  | error e => exact r.fail_leads lib hf _ _ e
  | ok u =>
      refine Leads.bind (modifyStatus_leads _) fun _ => ?_
      refine Leads.bind (Leads.read (fun _ hs => hs) _) fun installed => ?_
      cases installed with
      | false => exact r.install_leads lib hf manager
      | true =>
          refine Leads.bind (r.ensureFinalizer_leads lib hf) fun _ => ?_
          refine Leads.bind (Leads.read (fun _ hs => hs) _) fun required => ?_
          cases required with
          | true => exact r.update_leads lib hf manager
          | false => exact r.reconcileRelease_leads lib hf manager

omit hf in
/-- Waiting replaces the object and writes nothing. -/
theorem waitForDeletion_leads (req : Request) :
    ∀ n, Leads (Served f) (Served f) (r.waitForDeletion req n)
  | 0 => Leads.throw (fun _ hs => hs) _
  | n + 1 => by
      refine Leads.bind (Leads.attempt (Leads.atomic fun _ hs => hs)) fun found => ?_
      cases found with
      | error e =>
          simp only
          split
          · exact Leads.pure (fun _ hs => hs) ()
          · exact Leads.throw (fun _ hs => hs) e
      | ok o =>
          refine Leads.bind (Leads.modify fun _ hs => hs) fun _ => ?_
          exact waitForDeletion_leads req n

theorem uninstalled_leads (outcome : Except GoError Release) :
    Leads (Injected f) (Injected f) (r.uninstalled lib outcome) := by
  cases outcome with
  | error e =>
      unfold uninstalled
      simp only
      split
      · exact r.fail_leads lib hf _ _ e
      · exact modifyStatus_leads _
  | ok release =>
      refine Leads.bind (modifyStatus_leads _) fun _ => ?_
      refine Leads.bind (r.setCondition_leads _) fun _ => ?_
      exact modifyStatus_leads _

theorem uninstall_leads (req : Request) (manager : Manager ω) :
    Leads (Injected f) (Served f) (r.uninstall lib req manager) := by
  have hserved : ∀ s : OpState ω, Injected f s → Served f s := fun _ hs => hs.2
  refine Leads.bindVia (K := Injected f) (Leads.read (fun _ hs => hs) _) (fun finalizers => ?_)
    hserved
  split
  · exact Leads.pure hserved _
  · refine Leads.bindVia (K := Injected f) (Leads.attempt (ask_leads _)) (fun outcome => ?_)
      hserved
    refine Leads.bindVia (K := Injected f) (r.uninstalled_leads lib hf outcome) (fun _ => ?_) hserved
    refine Leads.bindVia (K := Injected f) (r.updateResourceStatus_leads lib hf) (fun _ => ?_)
      hserved
    refine Leads.bindVia (K := Injected f) (modifyObject_leads fun o => ?_) (fun _ => ?_) hserved
    · exact spec_congr (lib.removeFinalizer_other _ _ _ (by decide))
    · refine Leads.bindVia (K := Injected f) (r.updateResource_leads lib hf) (fun _ => ?_) hserved
      refine Leads.bindVia (K := Served f) (fun s hs => ?_) (fun _ => ?_) fun _ hs => hs
      · exact r.waitForDeletion_leads req r.polls s hs.2
      · exact Leads.pure (fun _ hs => hs) _

/-! ### The reconciliation -/

/-- The object with the settings that its labels name. -/
def injected (req : Request) (o : Json) : Json :=
  inject lib (getIstioEnv lib o).1 (getIstioEnv lib o).2 (lib.setNamespace (getPowerfulNamespace req) o)

omit hf in
theorem nested_setNamespace (ns k : String) (p : List String) (o : Json) (hk : k ≠ "namespace") :
    nested ("metadata" :: k :: p) (lib.setNamespace ns o) = nested ("metadata" :: k :: p) o :=
  lib.setNamespace_other _ _ _ (by simp [Ne.symm hk]) (by simp [hk])

omit hf in
theorem getIstioEnv_setNamespace (ns : String) (o : Json) :
    getIstioEnv lib (lib.setNamespace ns o) = getIstioEnv lib o := by
  unfold getIstioEnv
  simp only [lib.nestedString_eq]
  rw [nested_setNamespace lib ns "labels" _ o (by decide),
    nested_setNamespace lib ns "labels" _ o (by decide)]

omit hf in
theorem spec_injected (req : Request) {o : Json} (h : spec o = some f) :
    spec (injected lib req o) = some (Function.update
      (Function.update f "istioEnv" (some (.str
        (if (getIstioEnv lib o).2 ≠ "" then "" else (getIstioEnv lib o).1))))
      "revision" (some (.str (getIstioEnv lib o).2))) := by
  refine spec_inject lib ?_ _ _
  rw [← h]
  exact spec_congr (lib.setNamespace_other _ _ _ (by simp) (by simp))

omit hf in
theorem getFinalizers_injected (req : Request) (o : Json) :
    lib.getFinalizers (injected lib req o) = lib.getFinalizers o := by
  apply lib.getFinalizers_congr
  unfold injected
  rw [nested_inject_other lib _ _ _ (by decide), nested_setNamespace lib _ _ _ _ (by decide)]

omit hf in
theorem getDeletionTimestamp_injected (req : Request) (o : Json) :
    lib.getDeletionTimestamp (injected lib req o) = lib.getDeletionTimestamp o := by
  apply lib.getDeletionTimestamp_congr
  unfold injected
  rw [nested_inject_other lib _ _ _ (by decide), nested_setNamespace lib _ _ _ _ (by decide)]

theorem manage_leads (req : Request) : Leads (Injected f) (Served f) (r.manage lib req) := by
  have hserved : ∀ s : OpState ω, Injected f s → Served f s := fun _ hs => hs.2
  refine Leads.bindVia (K := Injected f) (Leads.read (fun _ hs => hs) _) (fun cr => ?_) hserved
  refine Leads.bindVia (K := Injected f) (ask_leads _) (fun manager => ?_) hserved
  refine Leads.bindVia (K := Injected f) (modifyStatus_leads _) (fun _ => ?_) hserved
  refine Leads.bindVia (K := Injected f) (Leads.read (fun _ hs => hs) _) (fun deleted => ?_) hserved
  cases deleted with
  | some time => exact r.uninstall_leads lib hf req manager
  | none => exact fun s hs => (r.maintain_leads lib hf manager s hs).2

/-- The state in which a reconciliation that has read `o` takes the resource over. -/
def begun (req : Request) (o : Json) (w : ω) : OpState ω where
  object := ⟨injected lib req o, none⟩
  stored := o
  world := w

omit hf in
theorem reconcile_run (req : Request) {o : Json} {w w' : ω}
    (hget : r.client.get req w = (.ok o, w')) :
    ∃ w'', (r.reconcile lib req).run { world := w } = (r.manage lib req).run (begun lib req o w'') := by
  have hread : (ask (r.client.get req)).attempt.run ({ world := w } : OpState ω) =
      (.ok (.ok o), { world := w' }) := by
    rw [run_attempt]
    unfold ask
    rw [run_atomic]
    simp only [hget]
  unfold reconcile
  rw [run_bind_ok hread]
  refine ⟨(r.client.patch (getPowerfulNamespace req) (namespacePatch
    (if (getIstioEnv lib o).2 ≠ "" then "" else (getIstioEnv lib o).1) (getIstioEnv lib o).2) w').2, ?_⟩
  unfold begun injected
  rw [← getIstioEnv_setNamespace lib (getPowerfulNamespace req) o]
  rfl

/-- A resource that is being deleted without the finalizer: nothing is written. -/
def Terminated (o : Json) : Prop :=
  (lib.getDeletionTimestamp o).isSome ∧ finalizer ∉ lib.getFinalizers o

omit hf in
theorem manage_terminated (req : Request) {o : Json} (ho : Terminated lib o) (w : ω) :
    ((r.manage lib req).run (begun lib req o w)).2.writes = [] := by
  obtain ⟨time, htime⟩ := Option.isSome_iff_exists.mp ho.1
  have hdeleted := (getDeletionTimestamp_injected lib req o).trans htime
  have hfinalizers : finalizer ∉ lib.getFinalizers (injected lib req o) := by
    rw [getFinalizers_injected]
    exact ho.2
  have hleads : Leads (fun s : OpState ω => s.writes = [] ∧ s.object.object = injected lib req o)
      (fun s => s.writes = []) (r.manage lib req) := by
    refine Leads.bindVia (K := fun s => s.writes = [] ∧ s.object.object = injected lib req o)
      (Leads.read (fun s hs => hs) _) (fun cr => ?_) fun s hs => hs.1
    refine Leads.bindVia (K := fun s => s.writes = [] ∧ s.object.object = injected lib req o)
      (Leads.atomic fun s hs => hs) (fun manager => ?_) fun s hs => hs.1
    refine Leads.bindVia (K := fun s => s.writes = [] ∧ s.object.object = injected lib req o)
      (Leads.modify fun s hs => hs) (fun _ => ?_) fun s hs => hs.1
    refine Leads.readBind fun s hs => ?_
    rw [hs.2, hdeleted]
    show ((r.uninstall lib req manager).run s).2.writes = []
    unfold uninstall
    rw [run_bind_ok (run_readObject _ s), hs.2, if_pos hfinalizers]
    exact hs.1
  exact hleads _ ⟨rfl, rfl⟩

/-! ### When the bodies carry the spec -/

/-- A release manager that fails. -/
def failingManager : Manager Unit where
  uninstallRelease w := (.error {}, w)
  sync w := (.error {}, w)
  isInstalled _ := false
  installRelease w := (.error {}, w)
  isUpdateRequired _ := false
  updateRelease _ w := (.error {}, w)
  reconcileRelease w := (.error {}, w)

/-- An API server that gives out `o` and refuses updates, and a release manager that fails. -/
def failing (o : Json) : HelmOperatorReconciler Unit where
  client :=
    { get := fun _ w => (.ok o, w)
      update := fun _ _ w => (.error {}, w)
      updateStatus := fun _ _ w => (.error {}, w)
      patch := fun _ _ w => (none, w)
      update_spec := by
        intro stored o w o' w' h
        cases h
      updateStatus_spec := by
        intro stored o w o' w' h
        cases h }
  newManager _ w := (.ok failingManager, w)
  fromUnstructured _ := .ok {}
  now w := (0, w)
  steps := 1
  polls := 0

omit hf in
/-- Where the release manager fails, its error is reported. -/
theorem failing_writes (req : Request) (o : Json) (s : OpState Unit)
    (hs : ¬ ((lib.getDeletionTimestamp s.object.object).isSome ∧
      finalizer ∉ lib.getFinalizers s.object.object)) :
    ∃ status, (((failing o).manage lib req).run s).2.writes =
      s.writes ++ [⟨true, ⟨removeIstioEnv lib s.object.object, some status⟩⟩] := by
  unfold manage
  rw [run_bind_ok (run_read _ _)]
  have hmanager : (ask ((failing o).newManager s.object)).run s = (.ok failingManager, s) := rfl
  rw [run_bind_ok hmanager, run_bind_ok (run_modifyStatus _ _), run_bind_ok (run_readObject _ _)]
  cases hdeleted : lib.getDeletionTimestamp s.object.object with
  | none =>
      exact ⟨_, rfl⟩
  | some time =>
      have hfinalizers : ¬ finalizer ∉ lib.getFinalizers s.object.object := by
        intro h
        exact hs ⟨by rw [hdeleted]; rfl, h⟩
      simp only
      unfold uninstall
      rw [run_bind_ok (run_readObject _ _), if_neg hfinalizers]
      exact ⟨_, rfl⟩

omit hf in
theorem failing_reconcile (req : Request) {o : Json} (ho : ¬ Terminated lib o) :
    ∃ status, (((failing o).reconcile lib req).run { world := () }).2.writes =
      [⟨true, ⟨removeIstioEnv lib (injected lib req o), some status⟩⟩] := by
  obtain ⟨w, hrun⟩ := (failing o).reconcile_run lib req (o := o) (w := ()) rfl
  rw [hrun]
  refine failing_writes lib req o (begun lib req o w) ?_
  show ¬ ((lib.getDeletionTimestamp (injected lib req o)).isSome ∧
    finalizer ∉ lib.getFinalizers (injected lib req o))
  rw [getDeletionTimestamp_injected, getFinalizers_injected]
  exact ho

/-- The spec has no environment, and the revision that the labels name. -/
def Settled (o : Json) (f : String → Option Json) : Prop :=
  f "istioEnv" = none ∧ f "revision" = some (.str (getIstioEnv lib o).2)

omit hf in
/-- The injection changes such a spec in the environment only. -/
theorem begun_injected (req : Request) {o : Json} (ho : spec o = some f) (hset : Settled lib o f)
    (w : ω) : Injected f (begun lib req o w) := by
  refine ⟨⟨_, spec_injected lib req ho, fun k hk => ?_⟩, ho, ?_⟩
  · by_cases hrev : k = "revision"
    · rw [hrev, Function.update_self, hset.2]
    · rw [Function.update_of_ne hrev, Function.update_of_ne hk]
  · intro b hb
    cases hb

omit hf in
theorem settled_of_removed (req : Request) {o : Json} (ho : spec o = some f)
    (h : spec (removeIstioEnv lib (injected lib req o)) = some f) : Settled lib o f := by
  rw [spec_removeIstioEnv lib (spec_injected lib req ho)] at h
  have hfield := Option.some.inj h
  constructor
  · rw [← hfield, Function.update_self]
  · rw [← hfield, Function.update_of_ne (by decide), Function.update_self]

end HelmOperatorReconciler

open HelmOperatorReconciler

/-- **Written specs**: every reconciliation of a resource, in every world, writes its spec as it
was read if and only if that spec is settled, or the resource is terminated. -/
theorem bodies_iff (lib : Unstructured) (req : Request) {o : Json} {f : String → Option Json}
    (ho : spec o = some f) :
    (∀ (ω : Type) (r : HelmOperatorReconciler ω) (w w' : ω), r.client.get req w = (.ok o, w') →
      ∀ b ∈ ((r.reconcile lib req).run { world := w }).2.writes, spec b.body.object = spec o) ↔
      Terminated lib o ∨ Settled lib o f := by
  constructor
  · intro h
    by_cases hterm : Terminated lib o
    · exact Or.inl hterm
    · obtain ⟨status, hwrites⟩ := failing_reconcile lib req hterm
      have hbody := h Unit (failing o) () () rfl _
        (by rw [hwrites]; exact List.mem_singleton_self _)
      rw [ho] at hbody
      exact Or.inr (settled_of_removed lib req ho hbody)
  · intro h ω r w w' hget b hb
    obtain ⟨w'', hrun⟩ := r.reconcile_run lib req hget
    rw [hrun] at hb
    rcases h with hterm | hset
    · rw [r.manage_terminated lib req hterm] at hb
      cases hb
    · rw [ho]
      exact (r.manage_leads lib hset.1 req _ (begun_injected lib req ho hset w'')).2 b hb

/-! ### Objects without shared parts -/

/-- Set the value at a path; missing levels become maps. -/
def setNested (v : Json) : List String → Json → Option Json
  | [], _ => some v
  | k :: ks, .obj fs =>
      (setNested v ks ((fs.lookup k).getD (.obj []))).map fun j => .obj (Json.putField k j fs)
  | _ :: _, _ => none

theorem setNested_self (v : Json) : ∀ (p : List String) (o o' : Json),
    setNested v p o = some o' → nested p o' = some v
  | [], _, _, h => h.symm
  | k :: ks, .obj fs, o', h => by
      obtain ⟨j, hj, rfl⟩ := Option.map_eq_some_iff.mp h
      show ((Json.putField k j fs).lookup k).bind (nested ks) = some v
      rw [Json.lookup_putField_self]
      exact setNested_self v ks _ _ hj
  | _ :: _, .null, _, h | _ :: _, .bool _, _, h | _ :: _, .int _, _, h | _ :: _, .dbl _, _, h
  | _ :: _, .str _, _, h | _ :: _, .arr _, _, h => by cases h

theorem setNested_other (v : Json) : ∀ (p : List String) (o o' : Json) (q : List String),
    setNested v p o = some o' → ¬ p <+: q → ¬ q <+: p → nested q o' = nested q o
  | [], _, _, q, _, hp, _ => absurd (List.nil_prefix) hp
  | _ :: _, _, _, [], _, _, hq => absurd (List.nil_prefix) hq
  | k :: ks, .obj fs, o', l :: q, h, hp, hq => by
      obtain ⟨j, hj, rfl⟩ := Option.map_eq_some_iff.mp h
      show ((Json.putField k j fs).lookup l).bind (nested q) = (fs.lookup l).bind (nested q)
      by_cases hl : l = k
      · subst hl
        rw [List.cons_prefix_cons] at hp hq
        have hne : q ≠ [] := fun h => hq ⟨rfl, h ▸ List.nil_prefix⟩
        rw [Json.lookup_putField_self, Option.bind_some,
          setNested_other v ks _ _ q hj (fun h => hp ⟨rfl, h⟩) (fun h => hq ⟨rfl, h⟩)]
        cases fs.lookup l with
        | some _ => rfl
        | none =>
            cases q with
            | nil => exact absurd rfl hne
            | cons m q => rfl
      · rw [Json.lookup_putField_ne hl]
  | _ :: _, .null, _, _ :: _, h, _, _ | _ :: _, .bool _, _, _ :: _, h, _, _
  | _ :: _, .int _, _, _ :: _, h, _, _ | _ :: _, .dbl _, _, _ :: _, h, _, _
  | _ :: _, .str _, _, _ :: _, h, _, _ | _ :: _, .arr _, _, _ :: _, h, _, _ => by cases h

theorem setNested_isSome (v : Json) : ∀ (p : List String) (o : Json),
    (∀ q j, q <+: p → q ≠ p → nested q o = some j → ∃ fs, j = .obj fs) → (setNested v p o).isSome
  | [], _, _ => rfl
  | k :: ks, o, h => by
      obtain ⟨fs, rfl⟩ := h [] o List.nil_prefix (by simp) rfl
      show ((setNested v ks ((fs.lookup k).getD (.obj []))).map _).isSome
      rw [Option.isSome_map]
      refine setNested_isSome v ks _ fun q j hq hne hj => ?_
      cases hk : fs.lookup k with
      | some j' =>
          rw [hk, Option.getD_some] at hj
          refine h (k :: q) j (List.cons_prefix_cons.mpr ⟨rfl, hq⟩) (by simpa using hne) ?_
          show (fs.lookup k).bind (nested q) = some j
          rw [hk, Option.bind_some, hj]
      | none =>
          rw [hk, Option.getD_none] at hj
          cases q with
          | nil => exact ⟨[], (Option.some.inj hj).symm⟩
          | cons m q => cases hj

def textOf : Json → Option String
  | .str s => some s
  | _ => none

def finalizersOf (o : Json) : List String :=
  match nested ["metadata", "finalizers"] o with
  | some (.arr xs) => (xs.mapM textOf).getD []
  | _ => []

def withFinalizers (fs : List String) (o : Json) : Json :=
  (setNested (.arr (fs.map .str)) ["metadata", "finalizers"] o).getD o

theorem setNested_getD_other (v : Json) (p : List String) (o : Json) (q : List String)
    (hp : ¬ p <+: q) (hq : ¬ q <+: p) : nested q ((setNested v p o).getD o) = nested q o := by
  cases h : setNested v p o with
  | none => rfl
  | some o' => exact setNested_other v p o o' q h hp hq

/-- The helpers on plain trees. -/
def plain : Unstructured where
  nestedString p o := match nested p o with
    | some (.str s) => s
    | _ => ""
  nestedMap p o := match nested p o with
    | some (.obj fs) => fs
    | _ => []
  nestedSlice p o := match nested p o with
    | some (.arr xs) => xs
    | _ => []
  setNestedField := setNested
  setNamespace n o := (setNested (.str n) ["metadata", "namespace"] o).getD o
  getFinalizers := finalizersOf
  addFinalizer f o :=
    if f ∈ finalizersOf o then o else withFinalizers (finalizersOf o ++ [f]) o
  removeFinalizer f o := withFinalizers ((finalizersOf o).filter (· ≠ f)) o
  getDeletionTimestamp o := (nested ["metadata", "deletionTimestamp"] o).bind textOf
  getAnnotation k o := match nested ["metadata", "annotations", k] o with
    | some (.str s) => s
    | _ => ""
  nestedString_eq _ _ := rfl
  nestedMap_eq _ _ := rfl
  nestedSlice_eq _ _ := rfl
  setNestedField_isSome v p o _ h := setNested_isSome v p o h
  setNestedField_self := setNested_self
  setNestedField_other := setNested_other
  setNamespace_other n o q h h' := setNested_getD_other _ _ o q h h'
  addFinalizer_other f o k hk := by
    split
    · rfl
    · exact setNested_getD_other _ _ o [k] (by simp) (by simp [hk])
  removeFinalizer_other f o k hk := setNested_getD_other _ _ o [k] (by simp) (by simp [hk])
  getFinalizers_congr o o' h := by
    unfold finalizersOf
    rw [h]
  getDeletionTimestamp_congr o o' h := by rw [h]

/-- A resource whose spec has the revision of its label. -/
def settledResource : Json :=
  .obj [("metadata", .obj [("labels", .obj [("revision", .str "1-9")])]),
    ("spec", .obj [("revision", .str "1-9")])]

theorem bodies_iff_sample :
    (∀ (ω : Type) (r : HelmOperatorReconciler ω) (w w' : ω),
      r.client.get ⟨"", "demo"⟩ w = (.ok settledResource, w') →
      ∀ b ∈ ((r.reconcile plain ⟨"", "demo"⟩).run { world := w }).2.writes,
        spec b.body.object = spec settledResource) ↔
      Terminated plain settledResource ∨
        Settled plain settledResource (fun k => [("revision", Json.str "1-9")].lookup k) :=
  bodies_iff plain ⟨"", "demo"⟩ rfl

/-- A resource without labels, whose author has set an environment. -/
def customResource : Json :=
  .obj [("metadata", .obj []), ("spec", .obj [("istioEnv", .str "prod")])]

/-- The first body has lost the author's environment, and has an empty revision. -/
theorem body_not_settled :
    ¬ ∀ (lib : Unstructured) (req : Request) (o : Json), (spec o).isSome →
      ∀ (ω : Type) (r : HelmOperatorReconciler ω) (w w' : ω), r.client.get req w = (.ok o, w') →
        ∀ b ∈ ((r.reconcile lib req).run { world := w }).2.writes, spec b.body.object = spec o := by
  intro h
  have hbodies := h plain ⟨"", "demo"⟩ customResource rfl Unit (failing customResource) () () rfl
  have hfields : ∀ b ∈ (((failing customResource).reconcile plain ⟨"", "demo"⟩).run
      { world := () }).2.writes,
      (spec b.body.object).map (fun f => f "istioEnv") =
        (spec customResource).map (fun f => f "istioEnv") := by
    intro b hb
    rw [hbodies b hb]
  revert hfields
  decide +kernel

end Powerful.Helm
