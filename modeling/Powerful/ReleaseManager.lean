import Mathlib
import Powerful.HelmValues
import Powerful.Outcomes
import Powerful.ReleaseResources

/-! # The release manager

A release manager looks after the release of one custom resource: `sync` brings the stored versions
of the release in line and finds out what there is to do, `installRelease`, `updateRelease` and
`uninstallRelease` run an action of Helm, and `reconcileRelease` goes through the resources of the
deployed release.  A failed installation is uninstalled and a failed update rolled back.

The storage of releases and the actions are Helm's: oracles over a world, with the records that the
storage holds.  A manager's own state is what `sync` finds out.

`sync` deletes no version that is deployed and none of another release, whatever its outcome
(`sync_keeps`); if it succeeds no other version of the release is left, and the release counts as
installed exactly if a version of it is deployed (`sync_ensures`). -/

namespace Powerful.Helm

open Resumption

/-! ### Releases -/

inductive ReleaseStatus where
  | unknown
  | deployed
  | uninstalled
  | superseded
  | failed
  | uninstalling
  | pendingInstall
  | pendingUpgrade
  | pendingRollback
  deriving DecidableEq

structure ReleaseInfo where
  status : ReleaseStatus
  notes : String := ""
  deriving DecidableEq

/-- A version of a release, as it is stored; `chart` is the name of its chart. -/
structure ReleaseRecord where
  name : String
  version : ℤ
  info : Option ReleaseInfo
  manifest : String
  chart : Option String
  deriving DecidableEq

namespace ReleaseRecord
variable (r : ReleaseRecord)

def key : String × ℤ := (r.name, r.version)

def isDeployed : Bool := r.info.any fun i => i.status = .deployed

/-- There is an `Info`, and it says something else. -/
def isStale : Bool := r.info.any fun i => i.status ≠ .deployed

/-- What the reconciler sees of a release. -/
def release : Release := ⟨r.name, r.manifest, r.info.map ReleaseInfo.notes⟩

end ReleaseRecord

def without (key : String × ℤ) (rs : List ReleaseRecord) : List ReleaseRecord :=
  rs.filter fun r => r.key ≠ key

def notFoundErr (e : GoError) : Bool := contains e.message "not found"

/-- `storage.Storage`, with the versions that it holds.  A deletion that fails may have deleted. -/
structure ReleaseStorage (ω : Type) where
  records : ω → List ReleaseRecord
  history : String → ω → Except GoError (List ReleaseRecord) × ω
  delete : String → ℤ → ω → Except GoError Unit × ω
  deployed : String → ω → Except GoError ReleaseRecord × ω
  keys : ∀ w, ((records w).map ReleaseRecord.key).Nodup
  records_history : ∀ n w, records (history n w).2 = records w
  records_deployed : ∀ n w, records (deployed n w).2 = records w
  history_ok : ∀ n w rs w', history n w = (.ok rs, w') →
    ∀ r, r ∈ rs ↔ r ∈ records w ∧ r.name = n
  history_notFound : ∀ n w e w', history n w = (.error e, w') → notFoundErr e = true →
    ∀ r ∈ records w, r.name ≠ n
  delete_ok : ∀ n v w w', delete n v w = (.ok (), w') → records w' = without (n, v) (records w)
  delete_notFound : ∀ n v w e w', delete n v w = (.error e, w') → notFoundErr e = true →
    records w' = without (n, v) (records w)
  delete_any : ∀ n v w, records (delete n v w).2 = records w ∨
    records (delete n v w).2 = without (n, v) (records w)
  deployed_ok : ∀ n w r w', deployed n w = (.ok r, w') →
    r ∈ records w ∧ r.name = n ∧ r.isDeployed = true
  deployed_none : ∀ n w e w', deployed n w = (.error e, w') →
    contains e.message "has no deployed releases" = true ∨ e.kind = .releaseNotFound →
    ∀ r ∈ records w, r.name = n → r.isDeployed = false

structure Install where
  releaseName : String := ""
  namespace_ : String := ""

structure Upgrade where
  namespace_ : String := ""
  dryRun : Bool := false
  force : Bool := false

structure Rollback where
  force : Bool := false

structure Uninstall where
  keepHistory : Bool := false

/-- The actions of Helm; `χ` is a chart.  An action that fails may give a release all the same. -/
structure Actions (ω χ : Type) where
  install : Install → χ → Values → ω → Except (GoError × Option ReleaseRecord) ReleaseRecord × ω
  upgrade : Upgrade → String → χ → Values → ω →
    Except (GoError × Option ReleaseRecord) ReleaseRecord × ω
  uninstall : Uninstall → String → ω → Except (GoError × Option ReleaseRecord) ReleaseRecord × ω
  rollback : Rollback → String → ω → Except GoError Unit × ω

abbrev InstallOption := Install → Except GoError Install

abbrev UpdateOption := Upgrade → Except GoError Upgrade

abbrev UninstallOption := Uninstall → Except GoError Uninstall

def forceUpdate (force : Bool) : UpdateOption := fun u => .ok { u with force := force }

/-! ### The manager -/

variable {ω χ : Type}

/-- A candidate, which a dry run gives, is not stored. -/
structure ReleaseManager (ω χ : Type) where
  storageBackend : ReleaseStorage ω
  actionConfig : Actions ω χ
  kubeClient : OwnerRefInjectingClient ω
  jsonPatch : JsonPatch
  releaseName : String
  namespace_ : String
  chart : χ
  values : Values
  records_candidate : ∀ u n c v w, u.dryRun = true →
    storageBackend.records (actionConfig.upgrade u n c v w).2 = storageBackend.records w

structure ManagerState (ω : Type) where
  isInstalled : Bool := false
  isUpdateRequired : Bool := false
  deployedRelease : Option ReleaseRecord := none
  world : ω

abbrev Managed (ω α : Type) := Prog (ManagerState ω) GoError α

def consult {α : Type} (f : ω → α × ω) : Managed ω α :=
  .atomic fun s => (.ok (f s.world).1, { s with world := (f s.world).2 })

namespace ReleaseManager
variable (m : ReleaseManager ω χ)

/-! #### Syncing -/

def deleteStale (rel : ReleaseRecord) : Managed ω Unit :=
  if rel.isStale then do
    let deleted ← consult (m.storageBackend.delete rel.name rel.version)
    match deleted with
    | .error e =>
        if notFoundErr e then pure () else .throw (e.wrap "failed to delete stale release version: ")
    | .ok () => pure ()
  else pure ()

/-- Delete the versions that are not deployed. -/
def cleanup : List ReleaseRecord → Managed ω Unit
  | [] => pure ()
  | rel :: releases => do
      m.deleteStale rel
      cleanup releases

def errReleaseNotFound : GoError := { kind := .releaseNotFound, message := "release: not found" }

def getDeployedRelease : Managed ω ReleaseRecord := do
  let deployed ← consult (m.storageBackend.deployed m.releaseName)
  match deployed with
  | .error e =>
      .throw (if contains e.message "has no deployed releases" then errReleaseNotFound else e)
  | .ok rel => pure rel

def getCandidateRelease : Managed ω (Except (GoError × Option ReleaseRecord) ReleaseRecord) :=
  consult (m.actionConfig.upgrade { namespace_ := m.namespace_, dryRun := true } m.releaseName m.chart
    m.values)

/-- Look for the deployed release, and whether it is the one that the resource asks for. -/
def load : Managed ω Unit := do
  let deployed ← m.getDeployedRelease.attempt
  match deployed with
  | .error e =>
      if e.kind = .releaseNotFound then pure () else .throw (e.wrap "failed to get deployed release: ")
  | .ok deployedRelease => do
      .modify fun s => { s with deployedRelease := some deployedRelease, isInstalled := true }
      let candidate ← m.getCandidateRelease
      match candidate with
      | .error e => .throw (e.1.wrap "failed to get candidate release: ")
      | .ok candidateRelease =>
          if deployedRelease.manifest ≠ candidateRelease.manifest then
            .modify fun s => { s with isUpdateRequired := true }
          else pure ()

def sync : Managed ω Unit := do
  let history ← consult (m.storageBackend.history m.releaseName)
  match history with
  | .error e =>
      if notFoundErr e then m.load else .throw (e.wrap "failed to retrieve release history: ")
  | .ok releases => do
      m.cleanup releases
      m.load

/-! #### Actions -/

/-- Apply the options one after the other. -/
def applyOptions {α : Type} (text : String) (a : α) (opts : List (α → Except GoError α)) :
    Managed ω α :=
  let applied : Except GoError α := opts.foldlM (fun a o => o a) a
  .ofExcept (applied.mapError fun e => e.wrap text)

def installRelease (opts : List InstallOption) : Managed ω ReleaseRecord := do
  let install ← applyOptions "failed to apply install option: "
    { releaseName := m.releaseName, namespace_ := m.namespace_ } opts
  let installed ← consult (m.actionConfig.install install m.chart m.values)
  match installed with
  | .ok installedRelease => pure installedRelease
  | .error (e, none) => .throw (e.wrap "failed to install release: ")
  | .error (e, some _) => do
      let uninstalled ← consult (m.actionConfig.uninstall {} m.releaseName)
      match uninstalled with
      | .ok _ => .throw (e.wrap "failed to install release: ")
      | .error (uninstallErr, _) =>
          if notFoundErr uninstallErr then .throw (e.wrap "failed to install release: ")
          else .throw (uninstallErr.wrap
            ("failed installation (" ++ e.message ++ ") and failed rollback: "))

def updateRelease (opts : List UpdateOption) : Managed ω ReleaseRecord := do
  let upgrade ← applyOptions "failed to apply upgrade option: " { namespace_ := m.namespace_ } opts
  let updated ← consult (m.actionConfig.upgrade upgrade m.releaseName m.chart m.values)
  match updated with
  | .ok updatedRelease => pure updatedRelease
  | .error (e, none) => .throw (e.wrap "failed to update release: ")
  | .error (e, some _) => do
      let rolledBack ← consult (m.actionConfig.rollback { force := true } m.releaseName)
      match rolledBack with
      | .ok () => .throw (e.wrap "failed to update release: ")
      | .error rollbackErr =>
          .throw (rollbackErr.wrap ("failed update (" ++ e.message ++ ") and failed rollback: "))

/-- A panic of the source.  No caller sees it as an error there: the process crashes. -/
def nilDereference : GoError :=
  { message := "runtime error: invalid memory address or nil pointer dereference" }

def uninstallRelease (opts : List UninstallOption) : Managed ω ReleaseRecord := do
  let history ← consult (m.storageBackend.history m.releaseName)
  match history with
  | .error e => .throw (e.wrap "failed to get release history: ")
  | .ok [] => .throw errReleaseNotFound
  | .ok (_ :: _) => do
      let uninstall ← applyOptions "failed to apply uninstall option: " {} opts
      let uninstalled ← consult (m.actionConfig.uninstall uninstall m.releaseName)
      match uninstalled with
      | .ok release => pure release
      | .error (e, some _) => .throw e
      | .error (_, none) => .throw nilDereference

def reconcileRelease : Managed ω ReleaseRecord := do
  let deployedRelease ← .read ManagerState.deployedRelease
  match deployedRelease with
  | none => .throw nilDereference
  | some rel => do
      let reconciled ← consult fun w =>
        let (outcome, s) := (Helm.reconcileRelease m.jsonPatch m.kubeClient rel.manifest).run
          { world := w }
        (outcome, s.world)
      .ofExcept reconciled
      pure rel

/-- The manager as the reconciler sees it. -/
def manager : Manager (ManagerState ω) where
  uninstallRelease s := ((m.uninstallRelease []).run s).map (Except.map ReleaseRecord.release) id
  sync s := m.sync.run s
  isInstalled s := s.isInstalled
  installRelease s := ((m.installRelease []).run s).map (Except.map ReleaseRecord.release) id
  isUpdateRequired s := s.isUpdateRequired
  updateRelease force s :=
    ((m.updateRelease [forceUpdate force]).run s).map (Except.map ReleaseRecord.release) id
  reconcileRelease s := (m.reconcileRelease.run s).map (Except.map ReleaseRecord.release) id

end ReleaseManager

/-! ### What syncing does -/

namespace ReleaseManager
open Prog
variable (m : ReleaseManager ω χ)

def records (s : ManagerState ω) : List ReleaseRecord := m.storageBackend.records s.world

theorem mem_without {key : String × ℤ} {rs : List ReleaseRecord} {r : ReleaseRecord} :
    r ∈ without key rs ↔ r ∈ rs ∧ r.key ≠ key := by
  rw [without, List.mem_filter, decide_eq_true_eq]

theorem run_consult {α : Type} (f : ω → α × ω) (s : ManagerState ω) :
    (consult f).run s = (.ok (f s.world).1, { s with world := (f s.world).2 }) := run_atomic _ s

/-- Of the versions `rs` only stale ones of the manager's release are gone. -/
structure Keeps (rs : List ReleaseRecord) (s : ManagerState ω) : Prop where
  subset : m.records s ⊆ rs
  kept : ∀ r ∈ rs, r.name ≠ m.releaseName ∨ r.isStale = false → r ∈ m.records s

theorem Keeps.congr {rs : List ReleaseRecord} {s s' : ManagerState ω} (h : m.Keeps rs s)
    (heq : m.records s' = m.records s) : m.Keeps rs s' where
  subset := by
    rw [heq]
    exact h.subset
  kept r hr hkeep := by
    rw [heq]
    exact h.kept r hr hkeep

/-- What a deletion keeps. -/
theorem deleteStale_leads {I : ManagerState ω → Prop} {rel : ReleaseRecord}
    (h : rel.isStale = true → ∀ s, I s →
      I { s with world := (m.storageBackend.delete rel.name rel.version s.world).2 }) :
    Leads I I (m.deleteStale rel) := by
  unfold deleteStale
  split
  · rename_i hstale
    refine Leads.bind (Leads.atomic (h hstale)) fun deleted => ?_
    cases deleted with
    | error e =>
        simp only
        split
        · exact Leads.pure (fun _ hs => hs) ()
        · exact Leads.throw (fun _ hs => hs) _
    | ok u => exact Leads.pure (fun _ hs => hs) ()
  · exact Leads.pure (fun _ hs => hs) ()

theorem deleteStale_keeps {rs : List ReleaseRecord} {rel : ReleaseRecord}
    (hkeys : (rs.map ReleaseRecord.key).Nodup) (hrel : rel ∈ rs) (hname : rel.name = m.releaseName) :
    Leads (m.Keeps rs) (m.Keeps rs) (m.deleteStale rel) := by
  refine m.deleteStale_leads fun hstale s hs => ?_
  rcases m.storageBackend.delete_any rel.name rel.version s.world with hsame | hwithout
  · exact hs.congr m hsame
  · refine ⟨fun r hr => ?_, fun r hr hkeep => ?_⟩
    · rw [records, hwithout, mem_without] at hr
      exact hs.subset hr.1
    · rw [records, hwithout, mem_without]
      refine ⟨hs.kept r hr hkeep, fun hkey => ?_⟩
      obtain rfl := List.inj_on_of_nodup_map hkeys hr hrel hkey
      rcases hkeep with hne | hnot
      · exact hne hname
      · rw [hstale] at hnot
        cases hnot

theorem cleanup_leads {I : ManagerState ω → Prop} : ∀ {releases : List ReleaseRecord},
    (∀ rel ∈ releases, Leads I I (m.deleteStale rel)) → Leads I I (m.cleanup releases)
  | [], _ => Leads.pure (fun _ hs => hs) ()
  | _ :: _, h => by
      obtain ⟨hrel, hrest⟩ := List.forall_mem_cons.mp h
      exact Leads.bind hrel fun _ => cleanup_leads hrest

/-- No version is stored under the key. -/
def Gone (key : String × ℤ) (s : ManagerState ω) : Prop := ∀ r ∈ m.records s, r.key ≠ key

/-- A new manager, or one that has found nothing. -/
def Unsynced (s : ManagerState ω) : Prop :=
  s.isInstalled = false ∧ s.isUpdateRequired = false ∧ s.deployedRelease = none

theorem deleteStale_unsynced (rel : ReleaseRecord) : Leads Unsynced Unsynced (m.deleteStale rel) :=
  m.deleteStale_leads fun _ _ hs => hs

theorem deleteStale_gone (rel : ReleaseRecord) (key : String × ℤ) :
    Leads (m.Gone key) (m.Gone key) (m.deleteStale rel) := by
  refine m.deleteStale_leads fun _ s hs r hr => ?_
  rcases m.storageBackend.delete_any rel.name rel.version s.world with hsame | hwithout
  · rw [records, hsame] at hr
    exact hs r hr
  · rw [records, hwithout, mem_without] at hr
    exact hs r hr.1

/-- A stale version is gone behind its deletion. -/
theorem deleteStale_ensures {rel : ReleaseRecord} (hstale : rel.isStale = true) :
    Ensures (fun _ => True) (fun o s => o = .ok () → m.Gone rel.key s) (m.deleteStale rel) := by
  have hwithout : ∀ {s : ManagerState ω} {rs : List ReleaseRecord},
      m.records s = without rel.key rs → m.Gone rel.key s := fun {s rs} heq r hr => by
    rw [heq, mem_without] at hr
    exact hr.2
  intro s _ hok
  unfold deleteStale at hok ⊢
  rw [if_pos hstale, run_bind, run_consult] at hok ⊢
  cases hdelete : m.storageBackend.delete rel.name rel.version s.world with
  | mk deleted w =>
    simp only [hdelete] at hok ⊢
    cases deleted with
    | error e =>
        simp only at hok ⊢
        split at hok
        · rename_i hnotFound
          rw [if_pos hnotFound]
          exact hwithout (m.storageBackend.delete_notFound _ _ _ _ _ hdelete hnotFound)
        · cases hok
    | ok u => exact hwithout (m.storageBackend.delete_ok _ _ _ _ hdelete)

theorem cleanup_ensures {rel : ReleaseRecord} (hstale : rel.isStale = true) :
    ∀ {releases : List ReleaseRecord}, rel ∈ releases →
      Ensures (fun _ => True) (fun o s => o = .ok () → m.Gone rel.key s) (m.cleanup releases)
  | first :: releases, hmem => by
      rcases List.mem_cons.mp hmem with rfl | hmem
      · refine Ensures.bind (m.deleteStale_ensures hstale) (fun _ => ?_) fun _ _ _ h => by cases h
        have hleads : Leads (m.Gone rel.key) (m.Gone rel.key) (m.cleanup releases) :=
          m.cleanup_leads fun rel' _ => m.deleteStale_gone rel' rel.key
        exact fun s hs _ => hleads s (hs rfl)
      · refine Ensures.bind (T := fun _ _ => True) (fun _ _ => trivial) (fun _ => ?_) fun _ _ _ h => by cases h
        exact cleanup_ensures hstale hmem

/-- What the manager knows agrees with the versions that are stored. -/
structure Loaded (rs : List ReleaseRecord) (s : ManagerState ω) : Prop where
  installed : s.isInstalled = true ↔ ∃ r ∈ rs, r.name = m.releaseName ∧ r.isDeployed = true
  deployed : ∀ rel, s.deployedRelease = some rel →
    rel ∈ rs ∧ rel.name = m.releaseName ∧ rel.isDeployed = true
  loaded : s.isInstalled = true ↔ s.deployedRelease.isSome = true
  required : ∀ rel, s.deployedRelease = some rel → ∃ w candidate,
    m.actionConfig.upgrade { namespace_ := m.namespace_, dryRun := true } m.releaseName m.chart
      m.values w = (.ok candidate, s.world) ∧
    (s.isUpdateRequired = true ↔ rel.manifest ≠ candidate.manifest)

theorem Ensures.consult {α : Type} {I : ManagerState ω → Prop}
    {Q : Except GoError α → ManagerState ω → Prop} {f : ω → α × ω}
    (h : ∀ s, I s → Q (.ok (f s.world).1) { s with world := (f s.world).2 }) :
    Ensures I Q (consult f) := Ensures.atomic h

theorem getDeployedRelease_ensures (rs : List ReleaseRecord) :
    Ensures (fun s => Unsynced s ∧ m.records s = rs)
      (fun o s => (Unsynced s ∧ m.records s = rs) ∧ match o with
        | .ok rel => rel ∈ rs ∧ rel.name = m.releaseName ∧ rel.isDeployed = true
        | .error e => e.kind = .releaseNotFound →
            ∀ r ∈ rs, r.name = m.releaseName → r.isDeployed = false) m.getDeployedRelease := by
  refine Ensures.bind (T := fun o s => (Unsynced s ∧ m.records s = rs) ∧ ∃ deployed w w',
    o = .ok deployed ∧ m.storageBackend.records w = rs ∧
      m.storageBackend.deployed m.releaseName w = (deployed, w')) ?_ (fun deployed => ?_) ?_
  · refine Ensures.consult fun s hs => ⟨⟨hs.1, ?_⟩, _, s.world, _, rfl, hs.2, rfl⟩
    exact (m.storageBackend.records_deployed m.releaseName s.world).trans hs.2
  · cases deployed with
    | error e =>
        refine Ensures.throw fun s ⟨hs, hanswer⟩ => ⟨hs, fun hkind => ?_⟩
        obtain ⟨_, w, w', ⟨⟩, rfl, hw⟩ := hanswer
        refine m.storageBackend.deployed_none _ _ _ _ hw ?_
        by_cases htext : contains e.message "has no deployed releases" = true
        · exact Or.inl htext
        · rw [if_neg htext] at hkind
          exact Or.inr hkind
    | ok rel =>
        refine Ensures.pure fun s ⟨hs, hanswer⟩ => ⟨hs, ?_⟩
        obtain ⟨_, w, w', ⟨⟩, rfl, hw⟩ := hanswer
        exact m.storageBackend.deployed_ok _ _ _ _ hw
  · rintro e s ⟨-, _, w, w', ⟨⟩, -⟩

theorem load_ensures (rs : List ReleaseRecord) :
    Ensures (fun s => Unsynced s ∧ m.records s = rs)
      (fun o s => m.records s = rs ∧ (o = .ok () → m.Loaded rs s)) m.load := by
  refine Ensures.attemptBind (m.getDeployedRelease_ensures rs) fun deployed => ?_
  cases deployed with
  | error e =>
      simp only
      split
      · rename_i hkind
        refine Ensures.pure fun s ⟨⟨⟨hinstalled, _, hdeployed⟩, hrecords⟩, hnone⟩ =>
          ⟨hrecords, fun _ => ⟨?_, ?_, ?_, ?_⟩⟩
        · refine iff_of_false (by simp [hinstalled]) ?_
          rintro ⟨r, hr, hname, hr'⟩
          rw [hnone hkind r hr hname] at hr'
          cases hr'
        · exact fun rel hrel => absurd hrel (by simp [hdeployed])
        · exact iff_of_false (by simp [hinstalled]) (by simp [hdeployed])
        · exact fun rel hrel => absurd hrel (by simp [hdeployed])
      · exact Ensures.throw fun s hs => ⟨hs.1.2, nofun⟩
  | ok rel =>
      intro s ⟨⟨⟨_, hrequired, _⟩, hrecords⟩, hrel⟩
      have hinst : ∃ r ∈ rs, r.name = m.releaseName ∧ r.isDeployed = true := ⟨rel, hrel⟩
      have hcandidate := m.records_candidate { namespace_ := m.namespace_, dryRun := true }
        m.releaseName m.chart m.values s.world rfl
      simp only [getCandidateRelease, run_bind, run_modify, run_consult]
      cases hupgrade : m.actionConfig.upgrade { namespace_ := m.namespace_, dryRun := true }
          m.releaseName m.chart m.values s.world with
      | mk candidate w =>
        rw [hupgrade] at hcandidate
        have hrecords' : m.storageBackend.records w = rs := hcandidate.trans hrecords
        cases candidate with
        | error e => exact ⟨hrecords', nofun⟩
        | ok candidate =>
            have hdeployed : ∀ rel', some rel = some rel' →
                rel' ∈ rs ∧ rel'.name = m.releaseName ∧ rel'.isDeployed = true := by
              rintro rel' ⟨⟩
              exact hrel
            simp only
            split
            · rename_i hne
              refine ⟨hrecords', fun _ => ⟨iff_of_true rfl hinst, hdeployed, iff_of_true rfl rfl, ?_⟩⟩
              rintro rel' ⟨⟩
              exact ⟨s.world, candidate, hupgrade, iff_of_true rfl hne⟩
            · rename_i heq
              refine ⟨hrecords', fun _ => ⟨iff_of_true rfl hinst, hdeployed, iff_of_true rfl rfl, ?_⟩⟩
              rintro rel' ⟨⟩
              exact ⟨s.world, candidate, hupgrade, iff_of_false
                (fun hsome => Bool.false_ne_true (hrequired.symm.trans hsome)) heq⟩

theorem run_sync (s : ManagerState ω) : m.sync.run s =
    match m.storageBackend.history m.releaseName s.world with
    | (.error e, w) =>
        if notFoundErr e then m.load.run { s with world := w }
        else (.error (e.wrap "failed to retrieve release history: "), { s with world := w })
    | (.ok releases, w) => (m.cleanup releases >>= fun _ => m.load).run { s with world := w } := by
  unfold sync
  rw [run_bind, run_consult]
  cases m.storageBackend.history m.releaseName s.world with
  | mk history w =>
    cases history with
    | error e =>
        simp only
        split <;> rfl
    | ok releases => rfl

/-- Looking for the deployed release changes no version. -/
theorem load_leads (rs : List ReleaseRecord) :
    Leads (fun s => m.records s = rs) (fun s => m.records s = rs) m.load := by
  have hdeployed : Leads (fun s => m.records s = rs) (fun s => m.records s = rs) m.getDeployedRelease := by
    refine Leads.bind (Leads.atomic fun s hs => ?_) fun deployed => ?_
    · exact (m.storageBackend.records_deployed m.releaseName s.world).trans hs
    · cases deployed with
      | error e => exact Leads.throw (fun _ hs => hs) _
      | ok rel => exact Leads.pure (fun _ hs => hs) rel
  refine Leads.bind (Leads.attempt hdeployed) fun deployed => ?_
  cases deployed with
  | error e =>
      simp only
      split
      · exact Leads.pure (fun _ hs => hs) ()
      · exact Leads.throw (fun _ hs => hs) _
  | ok rel =>
      refine Leads.bind (Leads.modify fun _ hs => hs) fun _ => ?_
      refine Leads.bind (Leads.atomic fun s hs => ?_) fun candidate => ?_
      · exact (m.records_candidate _ _ _ _ s.world rfl).trans hs
      · cases candidate with
        | error e => exact Leads.throw (fun _ hs => hs) _
        | ok cand =>
            simp only
            split
            · exact Leads.modify fun _ hs => hs
            · exact Leads.pure (fun _ hs => hs) ()

theorem keeps_self (s : ManagerState ω) : m.Keeps (m.records s) s :=
  ⟨List.Subset.refl _, fun _ hr _ => hr⟩

theorem load_keeps {rs : List ReleaseRecord} : Leads (m.Keeps rs) (m.Keeps rs) m.load :=
  fun s hs => hs.congr m (m.load_leads (m.records s) s rfl)

theorem sync_keeps (s : ManagerState ω) : m.Keeps (m.records s) (m.sync.run s).2 := by
  have hrecords := m.storageBackend.records_history m.releaseName s.world
  rw [run_sync]
  cases hhistory : m.storageBackend.history m.releaseName s.world with
  | mk history w =>
    rw [hhistory] at hrecords
    have hkeeps : m.Keeps (m.records s) { s with world := w } := (m.keeps_self s).congr m hrecords
    cases history with
    | error e =>
        simp only
        split
        · exact m.load_keeps _ hkeeps
        · exact hkeeps
    | ok releases =>
        have hreleases := m.storageBackend.history_ok _ _ _ _ hhistory
        have hcleanup : Leads (m.Keeps (m.records s)) (m.Keeps (m.records s)) (m.cleanup releases) :=
          m.cleanup_leads fun rel hrel => m.deleteStale_keeps (m.storageBackend.keys s.world)
            ((hreleases rel).mp hrel).1 ((hreleases rel).mp hrel).2
        exact (hcleanup.bind fun _ => m.load_keeps) _ hkeeps

/-- No version of the release is left that is not deployed. -/
def Cleaned (s : ManagerState ω) : Prop :=
  ∀ r ∈ m.records s, r.name = m.releaseName → r.isStale = false

theorem sync_ensures : Ensures Unsynced (fun o s => o = .ok () →
    m.Cleaned s ∧ m.Loaded (m.records s) s) m.sync := by
  intro s hunsynced hok
  have hkeeps := m.sync_keeps s
  have hrecords := m.storageBackend.records_history m.releaseName s.world
  rw [run_sync] at hok hkeeps ⊢
  cases hhistory : m.storageBackend.history m.releaseName s.world with
  | mk history w =>
    simp only [hhistory] at hok hkeeps hrecords ⊢
    cases history with
    | error e =>
        simp only at hok hkeeps ⊢
        split at hok
        · rename_i hnotFound
          rw [if_pos hnotFound] at hkeeps ⊢
          obtain ⟨hsame, hloaded⟩ := m.load_ensures (m.records s) { s with world := w }
            ⟨hunsynced, hrecords⟩
          refine ⟨fun r hr hname => ?_, by rw [hsame]; exact hloaded hok⟩
          exact absurd hname
            (m.storageBackend.history_notFound _ _ _ _ hhistory hnotFound r (hkeeps.subset hr))
        · cases hok
    | ok releases =>
        simp only at hok hkeeps ⊢
        obtain ⟨⟨⟩, s₁, hclean, hload⟩ := run_bind_inv (Prod.ext hok rfl)
        rw [run_bind_ok hclean] at hok hkeeps ⊢
        have hunsynced₁ : Unsynced s₁ := by
          have hleads : Leads Unsynced Unsynced (m.cleanup releases) :=
            m.cleanup_leads fun rel _ => m.deleteStale_unsynced rel
          have hrun := hleads { s with world := w } hunsynced
          rwa [hclean] at hrun
        obtain ⟨hsame, hloaded⟩ := m.load_ensures (m.records s₁) s₁ ⟨hunsynced₁, rfl⟩
        refine ⟨fun r hr hname => ?_, by rw [hsame]; exact hloaded hok⟩
        by_contra hstale
        rw [Bool.not_eq_false] at hstale
        have hmem : r ∈ releases :=
          (m.storageBackend.history_ok _ _ _ _ hhistory r).mpr ⟨hkeeps.subset hr, hname⟩
        have hgone := m.cleanup_ensures hstale hmem { s with world := w } trivial
        rw [hclean] at hgone
        rw [hsame] at hr
        exact hgone rfl r hr rfl

end ReleaseManager

/-! ### A store in memory -/

abbrev Store := { rs : List ReleaseRecord // (rs.map ReleaseRecord.key).Nodup }

theorem without_nodup (key : String × ℤ) (w : Store) :
    ((without key w.1).map ReleaseRecord.key).Nodup :=
  w.2.sublist (List.filter_sublist.map _)

theorem without_eq_self {key : String × ℤ} {rs : List ReleaseRecord} (h : ∀ r ∈ rs, r.key ≠ key) :
    without key rs = rs := List.filter_eq_self.mpr fun r hr => decide_eq_true (h r hr)

def memoryStorage : ReleaseStorage Store where
  records w := w.1
  history n w :=
    let rs := w.1.filter fun r => r.name = n
    (if rs = [] then .error ReleaseManager.errReleaseNotFound else .ok rs, w)
  delete n v w :=
    if ∀ r ∈ w.1, r.key ≠ (n, v) then (.error ReleaseManager.errReleaseNotFound, w)
    else (.ok (), ⟨without (n, v) w.1, without_nodup (n, v) w⟩)
  deployed n w :=
    (match w.1.find? fun r => r.name = n ∧ r.isDeployed = true with
      | some r => .ok r
      | none => .error { message := n ++ " has no deployed releases" }, w)
  keys w := w.2
  records_history _ _ := rfl
  records_deployed _ _ := rfl
  history_ok n w rs w' h r := by
    obtain ⟨hrs, -⟩ := Prod.mk.inj h
    split at hrs
    · cases hrs
    · obtain rfl := Except.ok.inj hrs
      simp [List.mem_filter]
  history_notFound n w e w' h _ := by
    obtain ⟨hrs, -⟩ := Prod.mk.inj h
    split at hrs
    · rename_i hnil
      simpa [List.filter_eq_nil_iff] using hnil
    · cases hrs
  delete_ok n v w w' h := by
    split at h
    · cases h
    · obtain ⟨-, rfl⟩ := Prod.mk.inj h
      rfl
  delete_notFound n v w e w' h _ := by
    split at h
    · rename_i hnone
      obtain ⟨-, rfl⟩ := Prod.mk.inj h
      exact (without_eq_self hnone).symm
    · cases h
  delete_any n v w := by
    split
    · exact Or.inl rfl
    · exact Or.inr rfl
  deployed_ok n w r w' h := by
    obtain ⟨hr, -⟩ := Prod.mk.inj h
    split at hr
    · rename_i r' hfind
      obtain rfl := Except.ok.inj hr
      have hprops := List.find?_some hfind
      rw [decide_eq_true_eq] at hprops
      exact ⟨List.mem_of_find?_eq_some hfind, hprops⟩
    · cases hr
  deployed_none n w e w' h _ r hr hname := by
    obtain ⟨hnone, -⟩ := Prod.mk.inj h
    split at hnone
    · cases hnone
    · rename_i hfind
      have hprops := List.find?_eq_none.mp hfind r hr
      simpa [hname] using hprops

/-- A chart is the text that it renders to. -/
def renderText (c : String) (_ : Values) : String := c

/-- Helm, without updates, uninstallations and rollbacks. -/
def memoryActions : Actions Store String where
  install i c v w :=
    if h : ∀ r ∈ w.1, r.name ≠ i.releaseName then
      let r : ReleaseRecord := ⟨i.releaseName, 1, some ⟨.deployed, ""⟩, renderText c v, none⟩
      (.ok r, ⟨r :: w.1, by
        rw [List.map_cons, List.nodup_cons]
        refine ⟨fun hmem => ?_, w.2⟩
        obtain ⟨r', hr', hkey⟩ := List.mem_map.mp hmem
        exact h r' hr' (congrArg Prod.fst hkey)⟩)
    else (.error ({ message := "cannot re-use a name that is still in use" }, none), w)
  upgrade u n c v w :=
    (if u.dryRun then .ok ⟨n, 2, some ⟨.pendingUpgrade, ""⟩, renderText c v, none⟩
    else .error ({}, none), w)
  uninstall _ _ w := (.error ({}, none), w)
  rollback _ _ w := (.error {}, w)

/-- A cluster that has nothing and takes nothing. -/
def bareCluster (ω : Type) : OwnerRefInjectingClient ω where
  live _ _ := none
  accept o := o
  build _ w := (.ok [], w)
  get _ w := (.error { kind := .notFound }, w)
  create _ _ w := (.error {}, w)
  patch _ _ w := (.error {}, w)
  setOwnerReferences o := o
  live_build _ _ := rfl
  live_get _ _ := rfl
  get_ok _ _ _ _ h := nomatch h
  get_notFound _ _ _ _ _ _ := rfl
  create_ok _ _ _ _ h := nomatch h
  create_other _ _ _ _ _ := rfl
  patch_ok _ _ _ _ h := nomatch h
  patch_other _ _ _ _ _ := rfl

def emptyCluster : OwnerRefInjectingClient Store := bareCluster Store

def memoryManager : ReleaseManager Store String where
  storageBackend := memoryStorage
  actionConfig := memoryActions
  kubeClient := emptyCluster
  jsonPatch := patchSample
  releaseName := "demo"
  namespace_ := "ns"
  chart := "kind: Deployment"
  values := ⟨[], by simp [DistinctKeys, DistinctFields]⟩
  records_candidate _ _ _ _ _ _ := rfl

namespace ReleaseManager
open Prog
variable (m : ReleaseManager ω χ)

/-- **Syncing**: of the stored versions only stale ones of the manager's release go, whatever the
outcome.  If a new manager syncs successfully no stale version of its release is left, and what it
then knows agrees with the versions that are stored. -/
theorem sync_settles (s : ManagerState ω) :
    m.Keeps (m.records s) (m.sync.run s).2 ∧
    (Unsynced s → (m.sync.run s).1 = .ok () →
      m.Cleaned (m.sync.run s).2 ∧ m.Loaded (m.records (m.sync.run s).2) (m.sync.run s).2) :=
  ⟨m.sync_keeps s, fun hunsynced hok => m.sync_ensures s hunsynced hok⟩

/-- A version that has failed goes. -/
theorem sync_settles_sample :
    let start : ManagerState Store := { world := ⟨[⟨"demo", 2, some ⟨.failed, ""⟩, "", none⟩,
      ⟨"demo", 1, some ⟨.deployed, ""⟩, "kind: Deployment", none⟩], by simp [ReleaseRecord.key]⟩ }
    memoryManager.Keeps (memoryManager.records start) (memoryManager.sync.run start).2 ∧
      memoryManager.Cleaned (memoryManager.sync.run start).2 ∧
      memoryManager.Loaded (memoryManager.records (memoryManager.sync.run start).2)
        (memoryManager.sync.run start).2 := by
  intro start
  obtain ⟨hkeeps, hsettled⟩ := memoryManager.sync_settles start
  exact ⟨hkeeps, hsettled ⟨rfl, rfl, rfl⟩ rfl⟩

end ReleaseManager

end Powerful.Helm
