import Mathlib
import Powerful.ReconcileReports
import Powerful.ReleaseManager

/-! # The reconciler on top of the release manager

`Operator.reconciler` is the reconciler whose managers are release managers: every reconciliation makes
a new one, which has synced nothing.

What a reconciliation comes to (`Course`) and what the release manager does to the stored versions meet
here.  `Converged` says that a version of the release is deployed, and that it is what the chart and the
values render to.  A reconciliation that has synced and returns ends converged, with the status that
says so (`reconcile_converges`); and from there reconciliations neither install nor update, and stay
converged (`reconcile_stays`). -/

namespace Powerful.Helm

open Resumption

variable {ω χ : Type}

/-! ### The operator -/

structure Operator (ω χ : Type) where
  client : Client ω
  newReleaseManager : CustomResource → ω → Except GoError (ReleaseManager ω χ) × ω
  releaseHook : Option (Release → ω → Except GoError Unit × ω) := none
  reconcilePeriod : ℤ := 0
  fromUnstructured : Fields → Except GoError HelmAppStatus
  now : ω → Time × ω
  steps : ℕ
  polls : ℕ

namespace Operator
variable (op : Operator ω χ)

/-- Ask the world; what the manager knows stays as it is. -/
abbrev lift {α : Type} (f : ω → α × ω) : ManagerState ω → α × ManagerState ω :=
  onPart ManagerState.world (fun s w => { s with world := w }) f

/-- A new manager has synced nothing. -/
def newManager (cr : CustomResource) (s : ManagerState ω) :
    Except GoError (Manager (ManagerState ω)) × ManagerState ω :=
  let (made, w) := op.newReleaseManager cr s.world
  (made.map ReleaseManager.manager, { world := w })

def reconciler : HelmOperatorReconciler (ManagerState ω) where
  client := op.client.on ManagerState.world fun s w => { s with world := w }
  newManager := op.newManager
  releaseHook := op.releaseHook.map fun hook release => lift (hook release)
  reconcilePeriod := op.reconcilePeriod
  fromUnstructured := op.fromUnstructured
  now := lift op.now
  steps := op.steps
  polls := op.polls

/-- Nothing but the manager touches the stored versions. -/
structure Leaves (records : ω → List ReleaseRecord) : Prop where
  get : ∀ req w, records (op.client.get req w).2 = records w
  update : ∀ stored o w, records (op.client.update stored o w).2 = records w
  updateStatus : ∀ stored o w, records (op.client.updateStatus stored o w).2 = records w
  patch : ∀ ns text w, records (op.client.patch ns text w).2 = records w
  hook : ∀ hook, op.releaseHook = some hook → ∀ release w, records (hook release w).2 = records w
  now : ∀ w, records (op.now w).2 = records w

end Operator

/-- The manager knows the same, and the same versions are stored. -/
structure SameReleases (records : ω → List ReleaseRecord) (s s' : ManagerState ω) : Prop where
  isInstalled : s'.isInstalled = s.isInstalled
  isUpdateRequired : s'.isUpdateRequired = s.isUpdateRequired
  deployedRelease : s'.deployedRelease = s.deployedRelease
  records_eq : records s'.world = records s.world

/-- What happens beside the calls. -/
theorem Operator.Leaves.follows {op : Operator ω χ} {records : ω → List ReleaseRecord}
    (h : op.Leaves records) {s s' : ManagerState ω} (hf : Follows op.reconciler s s') :
    SameReleases records s s' := by
  have hcalm : Calm op.reconciler (SameReleases records s) := by
    intro t t' hstep ⟨hinstalled, hrequired, hdeployed, hrecords⟩
    cases hstep with
    | get req => exact ⟨hinstalled, hrequired, hdeployed, (h.get req t.world).trans hrecords⟩
    | update stored o => exact ⟨hinstalled, hrequired, hdeployed, (h.update stored o t.world).trans hrecords⟩
    | updateStatus stored o =>
        exact ⟨hinstalled, hrequired, hdeployed, (h.updateStatus stored o t.world).trans hrecords⟩
    | patch ns text => exact ⟨hinstalled, hrequired, hdeployed, (h.patch ns text t.world).trans hrecords⟩
    | hook hhook release =>
        obtain ⟨hook, hop, rfl⟩ := Option.map_eq_some_iff.mp hhook
        exact ⟨hinstalled, hrequired, hdeployed, (h.hook hook hop release t.world).trans hrecords⟩
    | now => exact ⟨hinstalled, hrequired, hdeployed, (h.now t.world).trans hrecords⟩
  exact hcalm.follows hf ⟨rfl, rfl, rfl, rfl⟩

/-! ### The actions of a manager -/

namespace ReleaseManager
open Prog
variable (m : ReleaseManager ω χ) (render : χ → Values → String)

/-- What Helm does: an action that succeeds stores and deploys what the chart renders to, in the place
of what was deployed before; and going through resources does nothing to the stored versions. -/
structure Deploys : Prop where
  install : ∀ i c v w r w', m.actionConfig.install i c v w = (.ok r, w') →
    (r ∈ m.storageBackend.records w' ∧ r.name = i.releaseName ∧ r.isDeployed = true ∧
      r.manifest = render c v) ∧
    ∀ r' ∈ m.storageBackend.records w', r'.name = i.releaseName → r'.isDeployed = true →
      r' = r ∨ r' ∈ m.storageBackend.records w
  upgrade : ∀ u n c v w r w', u.dryRun = false → m.actionConfig.upgrade u n c v w = (.ok r, w') →
    (r ∈ m.storageBackend.records w' ∧ r.name = n ∧ r.isDeployed = true ∧ r.manifest = render c v) ∧
    ((∀ r₁ ∈ m.storageBackend.records w, ∀ r₂ ∈ m.storageBackend.records w, r₁.name = n → r₂.name = n →
      r₁.isDeployed = true → r₂.isDeployed = true → r₁ = r₂) →
      ∀ r' ∈ m.storageBackend.records w', r'.name = n → r'.isDeployed = true → r' = r)
  candidate : ∀ u n c v w r w', u.dryRun = true → m.actionConfig.upgrade u n c v w = (.ok r, w') →
    r.manifest = render c v
  build : ∀ text w, m.storageBackend.records (m.kubeClient.build text w).2 = m.storageBackend.records w
  get : ∀ k w, m.storageBackend.records (m.kubeClient.get k w).2 = m.storageBackend.records w
  create : ∀ k o w, m.storageBackend.records (m.kubeClient.create k o w).2 = m.storageBackend.records w
  patch : ∀ k ops w, m.storageBackend.records (m.kubeClient.patch k ops w).2 = m.storageBackend.records w

/-- One version of the release at most is deployed. -/
def Single (rs : List ReleaseRecord) : Prop :=
  ∀ r₁ ∈ rs, ∀ r₂ ∈ rs, r₁.name = m.releaseName → r₂.name = m.releaseName →
    r₁.isDeployed = true → r₂.isDeployed = true → r₁ = r₂

/-- A version of the release is deployed, and it is what the chart and the values render to. -/
structure Converged (rs : List ReleaseRecord) : Prop where
  deployed : ∃ r ∈ rs, r.name = m.releaseName ∧ r.isDeployed = true
  rendered : ∀ r ∈ rs, r.name = m.releaseName → r.isDeployed = true →
    r.manifest = render m.chart m.values

section actions
variable {m render}

/-- What a successful installation leaves. -/
theorem installRelease_ensures (h : m.Deploys render) (rs : List ReleaseRecord) :
    Ensures (fun s => m.records s = rs) (fun o s => ∀ r, o = .ok r →
      (r ∈ m.records s ∧ r.name = m.releaseName ∧ r.isDeployed = true ∧
        r.manifest = render m.chart m.values) ∧
      ∀ r' ∈ m.records s, r'.name = m.releaseName → r'.isDeployed = true → r' = r ∨ r' ∈ rs)
      (m.installRelease []) := by
  refine Ensures.seq (K := fun install s => install = (⟨m.releaseName, m.namespace_⟩ : Install) ∧
    m.records s = rs) (fun s hs => ⟨_, rfl, rfl, hs⟩) fun install => ?_
  refine Ensures.given ?_
  rintro rfl
  refine Ensures.seq (K := fun installed s => ∃ w, m.storageBackend.records w = rs ∧
    m.actionConfig.install ⟨m.releaseName, m.namespace_⟩ m.chart m.values w = (installed, s.world)) ?_ fun installed => ?_
  · exact Ensures.atomic fun s hs => ⟨_, rfl, s.world, hs, rfl⟩
  cases installed with
  | ok r =>
      refine Ensures.pure fun s hs r' hr' => ?_
      obtain ⟨w, rfl, hinstall⟩ := hs
      obtain rfl := Except.ok.inj hr'
      exact h.install _ _ _ _ _ _ hinstall
  | error e =>
      obtain ⟨e, release⟩ := e
      cases release with
      | none => exact Ensures.throw fun s hs => nofun
      | some r =>
          refine Ensures.seq (K := fun _ _ => True) (Ensures.atomic fun s _ => ⟨_, rfl, trivial⟩)
            fun uninstalled => ?_
          cases uninstalled with
          | ok r' => exact Ensures.throw fun s hs => nofun
          | error e' =>
              simp only
              split
              · exact Ensures.throw fun s hs => nofun
              · exact Ensures.throw fun s hs => nofun

/-- What a successful update leaves. -/
theorem updateRelease_ensures (h : m.Deploys render) (force : Bool) :
    Ensures (fun s => m.Single (m.records s)) (fun o s => ∀ r, o = .ok r →
      (r ∈ m.records s ∧ r.name = m.releaseName ∧ r.isDeployed = true ∧
        r.manifest = render m.chart m.values) ∧
      ∀ r' ∈ m.records s, r'.name = m.releaseName → r'.isDeployed = true → r' = r)
      (m.updateRelease [forceUpdate force]) := by
  refine Ensures.seq (K := fun upgrade s => upgrade = { namespace_ := m.namespace_, force := force } ∧
    m.Single (m.records s)) (fun s hs => ⟨_, rfl, rfl, hs⟩) fun upgrade => ?_
  refine Ensures.given ?_
  rintro rfl
  refine Ensures.seq (K := fun updated s => ∃ w, m.Single (m.storageBackend.records w) ∧
    m.actionConfig.upgrade { namespace_ := m.namespace_, force := force } m.releaseName m.chart
      m.values w = (updated, s.world)) ?_ fun updated => ?_
  · exact Ensures.atomic fun s hs => ⟨_, rfl, s.world, hs, rfl⟩
  cases updated with
  | ok r =>
      refine Ensures.pure fun s hs r' hr' => ?_
      obtain ⟨w, hsingle, hupgrade⟩ := hs
      obtain rfl := Except.ok.inj hr'
      obtain ⟨hr, honly⟩ := h.upgrade _ _ _ _ _ _ _ rfl hupgrade
      exact ⟨hr, honly hsingle⟩
  | error e =>
      obtain ⟨e, release⟩ := e
      cases release with
      | none => exact Ensures.throw fun s hs => nofun
      | some r =>
          refine Ensures.seq (K := fun _ _ => True) (Ensures.atomic fun s _ => ⟨_, rfl, trivial⟩)
            fun rolledBack => ?_
          cases rolledBack with
          | ok u => exact Ensures.throw fun s hs => nofun
          | error e' => exact Ensures.throw fun s hs => nofun

/-- Going through the resources leaves the versions alone. -/
theorem reconcileRelease_ensures (h : m.Deploys render) (rs : List ReleaseRecord)
    (deployedRelease : Option ReleaseRecord) :
    Ensures (fun s => m.records s = rs ∧ s.deployedRelease = deployedRelease)
      (fun o s => m.records s = rs ∧ ∀ r, o = .ok r → deployedRelease = some r)
      m.reconcileRelease := by
  refine Ensures.readBind fun known => ?_
  cases known with
  | none => exact Ensures.throw fun s hs => ⟨hs.1.1, nofun⟩
  | some rel =>
      refine Ensures.seq (K := fun _ s => m.records s = rs ∧ deployedRelease = some rel) ?_
        fun reconciled => ?_
      · refine Ensures.atomic fun s hs => ⟨_, rfl, ?_, hs.1.2.symm.trans hs.2⟩
        exact reconcileRelease_keeps (J := fun w => m.storageBackend.records w = rs) m.jsonPatch
          m.kubeClient (fun text w hw => (h.build text w).trans hw) (fun k w hw => (h.get k w).trans hw)
          (fun k o w hw => (h.create k o w).trans hw) (fun k ops w hw => (h.patch k ops w).trans hw)
          rel.manifest { world := s.world } hs.1.1
      refine Ensures.bind (T := fun _ s => m.records s = rs ∧ deployedRelease = some rel)
        (Ensures.ofExcept fun s hs => hs) (fun _ => ?_) fun e s hs => ⟨hs.1, nofun⟩
      refine Ensures.pure fun s hs => ⟨hs.1, fun r hr => ?_⟩
      obtain rfl := Except.ok.inj hr
      exact hs.2

/-- What a manager that has synced knows, with `rs` stored. -/
structure Knows (m : ReleaseManager ω χ) (render : χ → Values → String) (rs : List ReleaseRecord)
    (s : ManagerState ω) : Prop where
  installed : s.isInstalled = true ↔ ∃ r ∈ rs, r.name = m.releaseName ∧ r.isDeployed = true
  deployed : ∀ rel, s.deployedRelease = some rel →
    rel ∈ rs ∧ rel.name = m.releaseName ∧ rel.isDeployed = true
  loaded : s.isInstalled = true ↔ s.deployedRelease.isSome = true
  required : ∀ rel, s.deployedRelease = some rel →
    (s.isUpdateRequired = true ↔ rel.manifest ≠ render m.chart m.values)

theorem Loaded.knows {rs : List ReleaseRecord} {s : ManagerState ω} (h : m.Loaded rs s)
    (hm : m.Deploys render) : m.Knows render rs s where
  installed := h.installed
  deployed := h.deployed
  loaded := h.loaded
  required rel hrel := by
    obtain ⟨w, candidate, hupgrade, hiff⟩ := h.required rel hrel
    rw [← hm.candidate _ _ _ _ _ _ _ rfl hupgrade]
    exact hiff

theorem Knows.congr {s s' : ManagerState ω} (h : m.Knows render (m.records s) s)
    (hsame : SameReleases m.storageBackend.records s s') : m.Knows render (m.records s') s' := by
  have hrecords : m.records s' = m.records s := hsame.records_eq
  refine ⟨?_, ?_, ?_, ?_⟩
  · rw [hrecords, hsame.isInstalled]
    exact h.installed
  · rw [hrecords, hsame.deployedRelease]
    exact h.deployed
  · rw [hsame.isInstalled, hsame.deployedRelease]
    exact h.loaded
  · rw [hsame.isUpdateRequired, hsame.deployedRelease]
    exact h.required

/-- The manager has synced, the versions in `rs` being stored before. -/
structure HasSynced (m : ReleaseManager ω χ) (render : χ → Values → String) (rs : List ReleaseRecord)
    (s : ManagerState ω) : Prop where
  keeps : m.Keeps rs s
  knows : m.Knows render (m.records s) s

theorem Single.congr {rs : List ReleaseRecord} {s : ManagerState ω} (h : m.Single rs)
    (hkeeps : m.Keeps rs s) : m.Single (m.records s) :=
  fun r₁ hr₁ r₂ hr₂ => h r₁ (hkeeps.subset hr₁) r₂ (hkeeps.subset hr₂)

/-- A version that is deployed is not stale. -/
theorem isStale_of_deployed {r : ReleaseRecord} (h : r.isDeployed = true) : r.isStale = false := by
  unfold ReleaseRecord.isStale
  unfold ReleaseRecord.isDeployed at h
  cases hinfo : r.info with
  | none => rfl
  | some info =>
      rw [hinfo] at h
      simpa using h

theorem Converged.congr {rs : List ReleaseRecord} {s : ManagerState ω} (h : m.Converged render rs)
    (hkeeps : m.Keeps rs s) : m.Converged render (m.records s) where
  deployed := by
    obtain ⟨r, hr, hname, hdeployed⟩ := h.deployed
    exact ⟨r, hkeeps.kept r hr (Or.inr (isStale_of_deployed hdeployed)), hname, hdeployed⟩
  rendered r hr := h.rendered r (hkeeps.subset hr)

end actions

end ReleaseManager

/-! ### Reconciliations -/

namespace Operator
open ReleaseManager
variable {op : Operator ω χ} {m : ReleaseManager ω χ} {render : χ → Values → String}
  {w₀ w : ManagerState ω}

/-- A sync of a new manager, whatever its outcome. -/
theorem timeline_keeps (hleaves : op.Leaves m.storageBackend.records)
    {c : CallRecord (ManagerState ω)} (hc : c.call = .sync)
    (h : Timeline op.reconciler m.manager w₀ [c] w) : m.Keeps (m.records w₀) w := by
  obtain ⟨hanswer, hbefore, hsince⟩ := h.last (List.nil_append [c]).symm
  rw [hc] at hanswer
  have hafter : (m.sync.run c.before).2 = c.after := congrArg Prod.snd hanswer
  have hrecords : m.records c.before = m.records w₀ := (hleaves.follows (hbefore.follows rfl)).records_eq
  have hkeeps := m.sync_keeps c.before
  rw [hafter, hrecords] at hkeeps
  exact hkeeps.congr m (hleaves.follows hsince).records_eq

/-- A sync that succeeds. -/
theorem timeline_synced (hleaves : op.Leaves m.storageBackend.records) (hm : m.Deploys render)
    (hw₀ : Unsynced w₀) {c : CallRecord (ManagerState ω)} (hc : c.Synced)
    (h : Timeline op.reconciler m.manager w₀ [c] w) : m.HasSynced render (m.records w₀) w := by
  have hkeeps := timeline_keeps hleaves hc.1 h
  obtain ⟨hanswer, hbefore, hsince⟩ := h.last (List.nil_append [c]).symm
  have hsame := hleaves.follows (hbefore.follows rfl)
  have hunsynced : Unsynced c.before :=
    ⟨hsame.isInstalled.trans hw₀.1, hsame.isUpdateRequired.trans hw₀.2.1,
      hsame.deployedRelease.trans hw₀.2.2⟩
  rw [hc.1, hc.2] at hanswer
  have hafter : (m.sync.run c.before).2 = c.after := congrArg Prod.snd hanswer
  have hok : (m.sync.run c.before).1 = .ok () := by
    have hmap : (m.sync.run c.before).1.map (fun _ => (none : Option Release)) = .ok none :=
      congrArg Prod.fst hanswer
    cases hrun : (m.sync.run c.before).1 with
    | ok u => rfl
    | error e =>
        rw [hrun] at hmap
        cases hmap
  have hloaded := (m.sync_ensures c.before hunsynced hok).2
  rw [hafter] at hloaded
  exact ⟨hkeeps, (hloaded.knows hm).congr (hleaves.follows hsince)⟩

/-- The release that an action has given is one of the manager's. -/
theorem map_release_ok {outcome : Except GoError ReleaseRecord} {release : Release}
    (h : (outcome.map ReleaseRecord.release).map some = .ok (some release)) :
    ∃ r, outcome = .ok r ∧ release = r.release := by
  cases outcome with
  | error e => cases h
  | ok r => exact ⟨r, rfl, (Option.some.inj (Except.ok.inj h)).symm⟩

/-- An action that succeeds behind a sync. -/
theorem chosen_converges (hm : m.Deploys render) {c : CallRecord (ManagerState ω)}
    {rs : List ReleaseRecord} (hsynced : m.HasSynced render rs c.before) (hsingle : m.Single rs)
    (hchosen : Chosen op.reconciler m.manager c)
    (hanswer : m.manager.answer c.call c.before = (c.outcome, c.after)) {release : Release}
    (hc : c.outcome = .ok (some release)) :
    m.Converged render (m.records c.after) ∧ release.name = m.releaseName ∧
      release.manifest = render m.chart m.values := by
  rw [hc] at hanswer
  have hanswer₁ := congrArg Prod.fst hanswer
  have hanswer₂ := congrArg Prod.snd hanswer
  unfold Chosen at hchosen
  cases hcall : c.call with
  | uninstallRelease => rw [hcall] at hchosen; exact hchosen.elim
  | sync => rw [hcall] at hchosen; exact hchosen.elim
  | installRelease =>
      rw [hcall] at hchosen hanswer₁ hanswer₂
      obtain ⟨r, hr, rfl⟩ := map_release_ok hanswer₁
      obtain ⟨⟨hmem, hname, hdeployed, hmanifest⟩, honly⟩ :=
        m.installRelease_ensures hm (m.records c.before) c.before rfl r hr
      rw [show ((m.installRelease []).run c.before).2 = c.after from hanswer₂] at hmem honly
      refine ⟨⟨⟨r, hmem, hname, hdeployed⟩, fun r' hr' hname' hdeployed' => ?_⟩, hname, hmanifest⟩
      rcases honly r' hr' hname' hdeployed' with rfl | hbefore
      · exact hmanifest
      · -- nothing was deployed before
        have hinstalled := hsynced.knows.installed.mpr ⟨r', hbefore, hname', hdeployed'⟩
        rw [show c.before.isInstalled = false from hchosen] at hinstalled
        cases hinstalled
  | updateRelease force =>
      rw [hcall] at hanswer₁ hanswer₂
      obtain ⟨r, hr, rfl⟩ := map_release_ok hanswer₁
      obtain ⟨⟨hmem, hname, hdeployed, hmanifest⟩, honly⟩ :=
        m.updateRelease_ensures hm force c.before (hsingle.congr hsynced.keeps) r hr
      rw [show ((m.updateRelease [forceUpdate force]).run c.before).2 = c.after from hanswer₂] at hmem honly
      refine ⟨⟨⟨r, hmem, hname, hdeployed⟩, fun r' hr' hname' hdeployed' => ?_⟩, hname, hmanifest⟩
      rw [honly r' hr' hname' hdeployed', hmanifest]
  | reconcileRelease =>
      rw [hcall] at hchosen hanswer₁ hanswer₂
      obtain ⟨r, hr, rfl⟩ := map_release_ok hanswer₁
      obtain ⟨hrecords, hrel⟩ := m.reconcileRelease_ensures hm (m.records c.before)
        c.before.deployedRelease c.before ⟨rfl, rfl⟩
      rw [show (m.reconcileRelease.run c.before).2 = c.after from hanswer₂] at hrecords
      obtain ⟨hmem, hname, hdeployed⟩ := hsynced.knows.deployed r (hrel r hr)
      have hmanifest : r.manifest = render m.chart m.values := by
        by_contra hne
        have hrequired := (hsynced.knows.required r (hrel r hr)).mpr hne
        rw [show c.before.isUpdateRequired = false from hchosen.2] at hrequired
        cases hrequired
      rw [hrecords]
      refine ⟨⟨⟨r, hmem, hname, hdeployed⟩, fun r' hr' hname' hdeployed' => ?_⟩, hname, hmanifest⟩
      rw [hsingle.congr hsynced.keeps r' hr' r hmem hname' hname hdeployed' hdeployed, hmanifest]

/-- Behind a sync that finds the store converged the resources are looked after, and no more. -/
theorem chosen_stays (hm : m.Deploys render) {c : CallRecord (ManagerState ω)}
    {rs : List ReleaseRecord}
    (hsynced : m.HasSynced render rs c.before) (hconverged : m.Converged render rs)
    (hchosen : Chosen op.reconciler m.manager c)
    (hanswer : m.manager.answer c.call c.before = (c.outcome, c.after)) :
    c.call = .reconcileRelease ∧ m.records c.after = m.records c.before := by
  have hinstalled := hsynced.knows.installed.mpr (hconverged.congr hsynced.keeps).deployed
  unfold Chosen at hchosen
  cases hcall : c.call with
  | uninstallRelease => rw [hcall] at hchosen; exact hchosen.elim
  | sync => rw [hcall] at hchosen; exact hchosen.elim
  | installRelease =>
      rw [hcall] at hchosen
      rw [show c.before.isInstalled = false from hchosen] at hinstalled
      cases hinstalled
  | updateRelease force =>
      rw [hcall] at hchosen
      obtain ⟨rel, hrel⟩ := Option.isSome_iff_exists.mp (hsynced.knows.loaded.mp hinstalled)
      obtain ⟨hmem, hrelname, hreldeployed⟩ := hsynced.knows.deployed rel hrel
      exact absurd (hconverged.rendered rel (hsynced.keeps.subset hmem) hrelname hreldeployed)
        ((hsynced.knows.required rel hrel).mp hchosen.2)
  | reconcileRelease =>
      rw [hcall] at hanswer
      have hafter : (m.reconcileRelease.run c.before).2 = c.after := congrArg Prod.snd hanswer
      have hrecords := (m.reconcileRelease_ensures hm (m.records c.before)
        c.before.deployedRelease c.before ⟨rfl, rfl⟩).1
      rw [hafter] at hrecords
      exact ⟨rfl, hrecords⟩

/-- The managers of the reconciler are release managers that know nothing yet. -/
theorem newManager_ok {cr : CustomResource} {w w' : ManagerState ω} {mgr : Manager (ManagerState ω)}
    (h : op.reconciler.newManager cr w = (.ok mgr, w')) :
    ∃ m, mgr = m.manager ∧ op.newReleaseManager cr w.world = (.ok m, w'.world) ∧ Unsynced w' := by
  have hmade : op.newManager cr w = (.ok mgr, w') := h
  unfold newManager at hmade
  cases hnew : op.newReleaseManager cr w.world with
  | mk outcome w₁ =>
    rw [hnew] at hmade
    cases outcome with
    | error e => cases hmade
    | ok m =>
        cases hmade
        exact ⟨m, rfl, rfl, rfl, rfl, rfl⟩

end Operator

/-! ### An operator on a store in memory -/

def memoryOperator : Operator Store String where
  client :=
    { get := fun _ w => (.ok settledResource, w)
      update := fun _ o w => (.ok o.object, w)
      updateStatus := fun stored _ w => (.ok stored, w)
      patch := fun _ _ w => (none, w)
      update_spec := by
        rintro stored o w o' w' ⟨⟩
        rfl
      updateStatus_spec := by
        rintro stored o w o' w' ⟨⟩
        rfl }
  newReleaseManager _ w := (.ok memoryManager, w)
  reconcilePeriod := 60
  fromUnstructured _ := .ok {}
  now w := (0, w)
  steps := 4
  polls := 1

theorem memoryManager_deploys : memoryManager.Deploys renderText where
  install i c v w r w' h := by
    unfold memoryManager memoryActions at h
    simp only at h
    split at h
    · obtain ⟨hr, rfl⟩ := Prod.mk.inj h
      obtain rfl := Except.ok.inj hr
      refine ⟨⟨List.mem_cons_self, rfl, rfl, rfl⟩, fun r' hr' _ _ => ?_⟩
      exact List.mem_cons.mp hr'
    · cases h
  upgrade u n c v w r w' hdry h := by
    unfold memoryManager memoryActions at h
    simp only [hdry] at h
    cases h
  candidate u n c v w r w' hdry h := by
    unfold memoryManager memoryActions at h
    simp only [hdry, if_true] at h
    obtain ⟨hr, -⟩ := Prod.mk.inj h
    obtain rfl := Except.ok.inj hr
    rfl
  build _ _ := rfl
  get _ _ := rfl
  create _ _ _ := rfl
  patch _ _ _ := rfl

theorem memoryOperator_leaves : memoryOperator.Leaves memoryStorage.records where
  get _ _ := rfl
  update _ _ _ := rfl
  updateStatus _ _ _ := rfl
  patch _ _ _ := rfl
  hook _ h := nomatch h
  now _ := rfl

theorem memoryOperator_managers (cr : CustomResource) (w : Store) (m : ReleaseManager Store String)
    (w' : Store) (h : memoryOperator.newReleaseManager cr w = (.ok m, w')) :
    m.Deploys renderText ∧ memoryOperator.Leaves m.storageBackend.records := by
  obtain ⟨hm, -⟩ := Prod.mk.inj h
  obtain rfl := Except.ok.inj hm
  exact ⟨memoryManager_deploys, memoryOperator_leaves⟩

namespace Operator
open ReleaseManager
variable {op : Operator ω χ} {m : ReleaseManager ω χ} {render : χ → Values → String}

section runs
variable {lib : Unstructured} {req : Request} {s s' : OpState (Logged (ManagerState ω))}

/-- The manager that was made on the way from `s` to `s'`, and of which the calls were made. -/
def Asked (op : Operator ω χ) (m : ReleaseManager ω χ) (s s' : OpState (Logged (ManagerState ω))) :
    Prop :=
  ∃ cr w w', Follows op.reconciler s.world.world w ∧
    op.newReleaseManager cr w.world = (.ok m, w'.world) ∧
    Timeline op.reconciler m.manager w' s'.world.calls s'.world.world

/-- **Convergence**: where a reconciliation has synced and returns, a version of the release is
deployed, it is what the chart and the values render to, and the last body that is written is a status
that says so. -/
theorem reconcile_converges (hsteps : op.steps ≠ 0)
    (hmanagers : ∀ cr w m w', op.newReleaseManager cr w = (.ok m, w') →
      m.Deploys render ∧ op.Leaves m.storageBackend.records)
    (hsingle : ∀ cr w m w', Follows op.reconciler s.world.world w →
      op.newReleaseManager cr w.world = (.ok m, w') → m.Single (m.storageBackend.records w'))
    (hs : s.world.calls = []) {t : Time}
    (hrun : (op.reconciler.logged.reconcile lib req).run s = (.ok t, s'))
    {c : CallRecord (ManagerState ω)} (hc : c ∈ s'.world.calls) (hsync : c.call = .sync) :
    ∃ m, op.Asked m s s' ∧ m.Converged render (m.storageBackend.records s'.world.world.world) ∧
      LastStatus (fun st => st.deployedRelease = some ⟨m.releaseName, render m.chart m.values⟩) s' := by
  have hidle : s'.world.calls ≠ [] := List.ne_nil_of_mem hc
  rcases (reconcile_course lib req _).of_run ⟨hs, rfl⟩ hrun with
    ⟨hcalls, -⟩ | ⟨mgr, cr, w, w', hw, hnew, hcourse, htime⟩
  · exact absurd hcalls hidle
  obtain ⟨m, rfl, hmade, hunsynced⟩ := newManager_ok hnew
  obtain ⟨hm, hleaves⟩ := hmanagers _ _ _ _ hmade
  cases hcourse with
  | idle hcalls => exact absurd hcalls hidle
  | failed _ _ _ _ ho => cases ho
  | uninstalled hcalls hgone =>
      rw [hcalls, List.mem_singleton] at hc
      rw [hc, hgone.1] at hsync
      cases hsync
  | unheld _ _ ho => exact absurd rfl (ho t)
  | @acted c₁ c₂ release hcalls h₁ h₂ hc₂ ho =>
      obtain ⟨hanswer, hbefore, hsince⟩ := htime.last (show s'.world.calls = [c₁] ++ [c₂] from hcalls)
      obtain ⟨hconverged, hname, hmanifest⟩ := chosen_converges hm
        (timeline_synced hleaves hm hunsynced h₁ hbefore) (hsingle cr w m _ hw hmade) h₂ hanswer hc₂
      have hrecords : m.records s'.world.world = m.records c₂.after := (hleaves.follows hsince).records_eq
      rw [← hrecords] at hconverged
      refine ⟨m, ⟨cr, w, w', hw, hmade, htime⟩, hconverged, ?_⟩
      obtain ⟨before, body, status, hwrites, hstatus, hreports⟩ := (ho t rfl).2 hsteps
      rw [← hname, ← hmanifest]
      exact ⟨before, body, status, hwrites, hstatus, hreports.deployedRelease⟩

/-- The first reconciliation of a resource. -/
theorem reconcile_converges_sample :
    let start : OpState (Logged (ManagerState Store)) := { world := { world := { world := ⟨[], by simp⟩ } } }
    let ended := (memoryOperator.reconciler.logged.reconcile plain ⟨"", "demo"⟩).run start
    ∃ m, memoryOperator.Asked m start ended.2 ∧
      m.Converged renderText (m.storageBackend.records ended.2.world.world.world) ∧
      LastStatus (fun st => st.deployedRelease = some ⟨m.releaseName, renderText m.chart m.values⟩)
        ended.2 := by
  intro start ended
  have hrun : (memoryOperator.reconciler.logged.reconcile plain ⟨"", "demo"⟩).run start =
      (.ok 60, ended.2) := rfl
  have hsync : ∃ c ∈ ended.2.world.calls, c.call = .sync := ⟨_, List.mem_cons_self, rfl⟩
  obtain ⟨c, hc, hsync⟩ := hsync
  refine reconcile_converges (by decide) memoryOperator_managers (fun cr w m w' hw h => ?_) rfl hrun hc hsync
  obtain ⟨hm, rfl⟩ := Prod.mk.inj h
  obtain rfl := Except.ok.inj hm
  intro r₁ hr₁
  rw [show memoryManager.storageBackend.records w.world = [] from
    (memoryOperator_leaves.follows hw).records_eq] at hr₁
  cases hr₁

/-- **Stability**: where the release is converged a reconciliation neither installs nor updates, and
unless it uninstalls the release stays converged, whatever the outcome. -/
theorem reconcile_stays
    (hmanagers : ∀ cr w m w', op.newReleaseManager cr w = (.ok m, w') →
      m.Deploys render ∧ op.Leaves m.storageBackend.records)
    (hconverged : ∀ cr w m w', Follows op.reconciler s.world.world w →
      op.newReleaseManager cr w.world = (.ok m, w') →
      m.Converged render (m.storageBackend.records w'))
    (hs : s.world.calls = []) {o : Except GoError Time}
    (hrun : (op.reconciler.logged.reconcile lib req).run s = (o, s'))
    {c : CallRecord (ManagerState ω)} (hc : c ∈ s'.world.calls) :
    c.call = .uninstallRelease ∨ ((c.call = .sync ∨ c.call = .reconcileRelease) ∧
      ∃ m, op.Asked m s s' ∧ m.Converged render (m.storageBackend.records s'.world.world.world)) := by
  rcases (reconcile_course lib req _).of_run ⟨hs, rfl⟩ hrun with
    ⟨hcalls, -⟩ | ⟨mgr, cr, w, w', hw, hnew, hcourse, htime⟩
  · rw [hcalls] at hc
    cases hc
  obtain ⟨m, rfl, hmade, hunsynced⟩ := newManager_ok hnew
  obtain ⟨hm, hleaves⟩ := hmanagers _ _ _ _ hmade
  have hstart := hconverged cr w m _ hw hmade
  have hprotocol := hcourse.protocol
  have hasked : op.Asked m s s' := ⟨cr, w, w', hw, hmade, htime⟩
  generalize hcalls : s'.world.calls = calls at hprotocol hc htime
  cases hprotocol with
  | none => cases hc
  | uninstall d hd =>
      rw [List.mem_singleton.mp hc]
      exact Or.inl hd
  | sync d hd =>
      rw [List.mem_singleton.mp hc]
      exact Or.inr ⟨Or.inl hd, m, hasked, hstart.congr (timeline_keeps hleaves hd htime)⟩
  | act c₁ c₂ h₁ h₂ =>
      obtain ⟨hanswer, hbefore, hsince⟩ := htime.last (show [c₁, c₂] = [c₁] ++ [c₂] from rfl)
      have hsynced := timeline_synced hleaves hm hunsynced h₁ hbefore
      obtain ⟨hcall, hafter⟩ := chosen_stays hm hsynced hstart h₂ hanswer
      have hend := hstart.congr hsynced.keeps
      have hrecords : m.records s'.world.world = m.records c₂.before :=
        (hleaves.follows hsince).records_eq.trans hafter
      rw [← hrecords] at hend
      refine Or.inr ⟨?_, m, hasked, hend⟩
      rcases List.mem_cons.mp hc with rfl | hc
      · exact Or.inl h₁.1
      · rw [List.mem_singleton.mp hc]
        exact Or.inr hcall

/-- A later one. -/
theorem reconcile_stays_sample :
    let start : OpState (Logged (ManagerState Store)) := { world := { world := { world :=
      ⟨[⟨"demo", 1, some ⟨.deployed, ""⟩, "kind: Deployment", none⟩], by simp⟩ } } }
    let ended := (memoryOperator.reconciler.logged.reconcile plain ⟨"", "demo"⟩).run start
    ∃ c ∈ ended.2.world.calls, c.call = .uninstallRelease ∨
      ((c.call = .sync ∨ c.call = .reconcileRelease) ∧ ∃ m, memoryOperator.Asked m start ended.2 ∧
        m.Converged renderText (m.storageBackend.records ended.2.world.world.world)) := by
  intro start ended
  have hcall : ∃ c, c ∈ ended.2.world.calls := ⟨_, List.mem_cons_self⟩
  obtain ⟨c, hc⟩ := hcall
  refine ⟨c, hc, reconcile_stays memoryOperator_managers (fun cr w m w' hw h => ?_) rfl
    (Prod.mk.eta).symm hc⟩
  obtain ⟨hm, rfl⟩ := Prod.mk.inj h
  obtain rfl := Except.ok.inj hm
  rw [show memoryManager.storageBackend.records w.world = start.world.world.world.1 from
    (memoryOperator_leaves.follows hw).records_eq]
  exact ⟨⟨_, List.mem_cons_self, rfl, rfl⟩, fun r hr _ _ => List.mem_singleton.mp hr ▸ rfl⟩

end runs

end Operator

end Powerful.Helm
