import Mathlib
import Powerful.Resumption
import Powerful.JsonTree
import Powerful.HelmStatus

/-! # The reconciliation of a custom resource

`reconcile` reads a custom resource, injects the Istio settings that its labels name into its
spec (`setupIstioEnv`), lets a release manager install, update, reconcile or uninstall the
release, and keeps the resource's finalizer and status up to date.  Every write goes through
`withoutIstioEnv`, which takes `istioEnv` out of the spec before the write and puts it back
afterwards.

The object is the tree of its fields, as in the source, and the helpers of package
`unstructured` are an interface with their documented behaviour.  The API server and the
release manager are oracles over a state of the world.  The API server stores the spec of an
update, and leaves the stored spec alone when a status is updated; either way it answers with
the object that it has stored.

Module `SpecWrites` says when every body that is written carries the spec as it was read. -/

namespace Powerful.Helm

open Resumption

/-! ### Objects -/

abbrev Fields := List (String × Json)

/-- The value at a path of field names. -/
def nested : List String → Json → Option Json
  | [], j => some j
  | k :: ks, .obj fs => (fs.lookup k).bind (nested ks)
  | _ :: _, _ => none

/-- The spec of an object, as a map; there is none if the field `spec` is no map. -/
def spec (o : Json) : Option (String → Option Json) :=
  match nested ["spec"] o with
  | some (.obj fs) => some fun k => fs.lookup k
  | _ => none

/-- The helpers of package `unstructured`, with what they are documented to do.  A helper that
reads gives the zero value if there is no value of its type at the path.  `setNestedField`
fails if one of the nesting levels is no map. -/
structure Unstructured where
  nestedString : List String → Json → String
  nestedMap : List String → Json → Fields
  nestedSlice : List String → Json → List Json
  setNestedField : Json → List String → Json → Option Json
  setNamespace : String → Json → Json
  getFinalizers : Json → List String
  addFinalizer : String → Json → Json
  removeFinalizer : String → Json → Json
  getDeletionTimestamp : Json → Option String
  getAnnotation : String → Json → String
  nestedString_eq : ∀ p o, nestedString p o = match nested p o with
    | some (.str s) => s
    | _ => ""
  nestedMap_eq : ∀ p o, nestedMap p o = match nested p o with
    | some (.obj fs) => fs
    | _ => []
  nestedSlice_eq : ∀ p o, nestedSlice p o = match nested p o with
    | some (.arr xs) => xs
    | _ => []
  setNestedField_isSome : ∀ v p o, p ≠ [] →
    (∀ q j, q <+: p → q ≠ p → nested q o = some j → ∃ fs, j = .obj fs) →
    (setNestedField v p o).isSome
  setNestedField_self : ∀ v p o o', setNestedField v p o = some o' → nested p o' = some v
  setNestedField_other : ∀ v p o o' q, setNestedField v p o = some o' → ¬ p <+: q → ¬ q <+: p →
    nested q o' = nested q o
  setNamespace_other : ∀ n o q, ¬ ["metadata", "namespace"] <+: q →
    ¬ q <+: ["metadata", "namespace"] → nested q (setNamespace n o) = nested q o
  addFinalizer_other : ∀ f o k, k ≠ "metadata" → nested [k] (addFinalizer f o) = nested [k] o
  removeFinalizer_other : ∀ f o k, k ≠ "metadata" →
    nested [k] (removeFinalizer f o) = nested [k] o
  getFinalizers_congr : ∀ o o', nested ["metadata", "finalizers"] o' =
    nested ["metadata", "finalizers"] o → getFinalizers o' = getFinalizers o
  getDeletionTimestamp_congr : ∀ o o', nested ["metadata", "deletionTimestamp"] o' =
    nested ["metadata", "deletionTimestamp"] o → getDeletionTimestamp o' = getDeletionTimestamp o

/-- `o`: the content of the object, and the typed status that was put into it. -/
structure CustomResource where
  object : Json
  status : Option HelmAppStatus := none

/-! ### The world -/

inductive ErrorKind where
  | notFound
  | conflict
  | releaseNotFound
  | other
  deriving DecidableEq

structure GoError where
  kind : ErrorKind := .other
  message : String := ""

structure Request where
  namespace_ : String
  name : String

/-- A release; `notes` are there if its `Info` is. -/
structure Release where
  name : String
  manifest : String
  notes : Option String

/-- The API server.  Updates get the object that is stored, and answer with the one that is
stored afterwards. -/
structure Client (ω : Type) where
  get : Request → ω → Except GoError Json × ω
  update : Json → CustomResource → ω → Except GoError Json × ω
  updateStatus : Json → CustomResource → ω → Except GoError Json × ω
  patch : String → String → ω → Option GoError × ω
  update_spec : ∀ stored o w o' w', update stored o w = (.ok o', w') → spec o' = spec o.object
  updateStatus_spec : ∀ stored o w o' w',
    updateStatus stored o w = (.ok o', w') → spec o' = spec stored

structure Manager (ω : Type) where
  uninstallRelease : ω → Except GoError Release × ω
  sync : ω → Except GoError Unit × ω
  isInstalled : ω → Bool
  installRelease : ω → Except GoError Release × ω
  isUpdateRequired : ω → Bool
  updateRelease : Bool → ω → Except GoError Release × ω
  reconcileRelease : ω → Except GoError Release × ω

/-- The operator, and what it runs on: `steps` is how often an update is tried, `polls` how
often a deletion is looked for. -/
structure HelmOperatorReconciler (ω : Type) where
  client : Client ω
  newManager : CustomResource → ω → Except GoError (Manager ω) × ω
  releaseHook : Option (Release → ω → Except GoError Unit × ω) := none
  reconcilePeriod : ℤ := 0
  fromUnstructured : Fields → Except GoError HelmAppStatus
  now : ω → Time × ω
  steps : ℕ
  polls : ℕ

/-- A body that was handed to the client. -/
structure Write where
  toStatus : Bool
  body : CustomResource

/-- What a reconciliation works on.  `stored` and `writes` are ghosts: the object that the API
server holds, and the bodies written so far. -/
structure OpState (ω : Type) where
  object : CustomResource := ⟨.null, none⟩
  status : HelmAppStatus := {}
  stored : Json := .null
  writes : List Write := []
  world : ω

abbrev Op (ω α : Type) := Prog (OpState ω) GoError α

variable {ω : Type}

/-- Ask the world. -/
def ask {α : Type} (f : ω → Except GoError α × ω) : Op ω α :=
  .atomic fun s => ((f s.world).1, { s with world := (f s.world).2 })

def modifyObject (f : Json → Json) : Op ω Unit :=
  .modify fun s => { s with object := { s.object with object := f s.object.object } }

def modifyStatus (f : HelmAppStatus → HelmAppStatus) : Op ω Unit :=
  .modify fun s => { s with status := f s.status }

def readObject {α : Type} (f : Json → α) : Op ω α := .read fun s => f s.object.object

/-! ### The list of apps -/

section apps
variable (lib : Unstructured)

def getDeployVersion : Json → String
  | .obj fs => lib.nestedString ["version"] (.obj fs)
  | _ => ""

/-- One app, with its versions unless it has the default version only. -/
def appText : Json → Option String
  | .obj fs =>
      let app := Json.obj fs
      let appName := lib.nestedString ["Name"] app
      let appName := if appName = "" then lib.nestedString ["name"] app else appName
      if appName = "" then none
      else
        let versions := (lib.nestedSlice ["deploys"] app).map (getDeployVersion lib)
        if versions = [] ∨ versions = ["default"] then some appName
        else some (appName ++ "(" ++ String.intercalate "," (versions.filter (· ≠ "")) ++ ")")
  | _ => none

def getAppList (o : Json) : List String :=
  let apps := lib.nestedSlice ["spec", "apps"] o
  if apps = [] then ["a", "b(v1,v2)", "c"] else apps.filterMap (appText lib)

end apps

/-! ### The Istio settings -/

section settings
variable (lib : Unstructured)

def getStrLiteral (env : String) : String := if env = "" then "null" else "\"" ++ env ++ "\""

def namespacePatch (istioEnv revision : String) : String :=
  "\x7b \"metadata\": \x7b \"labels\": \x7b \"istio-env\": " ++ getStrLiteral istioEnv ++
    ", \"istio.io/rev\": " ++ getStrLiteral revision ++ " \x7d \x7d \x7d"

/-- The environment and the revision that the labels name. -/
def getIstioEnv (o : Json) : String × String :=
  (lib.nestedString ["metadata", "labels", "istio-env"] o,
    lib.nestedString ["metadata", "labels", "revision"] o)

/-- Set a text; a failure is logged. -/
def setText (v : String) (path : List String) (o : Json) : Json :=
  (lib.setNestedField (.str v) path o).getD o

/-- The settings that are injected into an object: a revision takes the place of an
environment. -/
def inject (istioEnv revision : String) (o : Json) : Json :=
  let istioEnv := if revision ≠ "" then "" else istioEnv
  let o := setText lib istioEnv ["spec", "istioEnv"] o
  let o := setText lib istioEnv ["metadata", "labels", "istio-env"] o
  let o := setText lib revision ["spec", "revision"] o
  setText lib revision ["metadata", "labels", "revision"] o

/-- Where the spec is no map, the nil map that takes its place is null. -/
def removeIstioEnv (o : Json) : Json :=
  let spec := match nested ["spec"] o with
    | some (.obj _) => Json.obj ((lib.nestedMap ["spec"] o).filter fun f => f.1 ≠ "istioEnv")
    | _ => .null
  match o with
  | .obj fs => .obj (Json.putField "spec" spec fs)
  | o => o

def restoreIstioEnv (istioEnv : String) (o : Json) : Json :=
  if istioEnv ≠ "" then setText lib istioEnv ["spec", "istioEnv"] o else o

def withoutIstioEnv (f : Op ω Unit) : Op ω Unit := do
  let istioEnv ← readObject (lib.nestedString ["spec", "istioEnv"])
  modifyObject (removeIstioEnv lib)
  let err ← f.attempt
  modifyObject (restoreIstioEnv lib istioEnv)
  .ofExcept err

end settings

namespace HelmOperatorReconciler
variable (lib : Unstructured) (r : HelmOperatorReconciler ω)

def setupIstioEnv (istioEnv revision ns : String) : Op ω Unit := do
  modifyObject (inject lib istioEnv revision)
  let istioEnv := if revision ≠ "" then "" else istioEnv
  let _ ← ask fun w =>
    ((.ok (), (r.client.patch ns (namespacePatch istioEnv revision) w).2) : Except GoError Unit × ω)
  pure ()

def getPowerfulNamespace (req : Request) : String := req.name

def setupNamespaceAndIstioEnv (req : Request) : Op ω Unit := do
  let ns := getPowerfulNamespace req
  modifyObject (lib.setNamespace ns)
  let (istioEnv, revision) ← readObject (getIstioEnv lib)
  r.setupIstioEnv lib istioEnv revision ns

/-! ### Updates -/

/-- Hand the object to the client; its answer replaces the object. -/
def send (toStatus : Bool) : Op ω Unit :=
  .atomic fun s =>
    let o : CustomResource := if toStatus then { s.object with status := some s.status } else s.object
    let writes := s.writes ++ [⟨toStatus, o⟩]
    match (if toStatus then r.client.updateStatus else r.client.update) s.stored o s.world with
    | (.error e, w) => (.error e, { s with object := o, writes := writes, world := w })
    | (.ok o', w) =>
        (.ok (), { s with object := ⟨o', none⟩, stored := o', writes := writes, world := w })

/-- `retry.RetryOnConflict`. -/
def retryOnConflict (f : Op ω Unit) : ℕ → Op ω Unit
  | 0 => pure ()
  | n + 1 => do
      let err ← f.attempt
      match err with
      | .ok () => pure ()
      | .error e => if e.kind = .conflict ∧ n ≠ 0 then retryOnConflict f n else .throw e

/-- What one attempt keeps. -/
theorem retryOnConflict_leads {I : OpState ω → Prop} {p : Op ω Unit} (h : Prog.Leads I I p) :
    ∀ n, Prog.Leads I I (retryOnConflict p n)
  | 0 => Prog.Leads.pure (fun _ hs => hs) ()
  | n + 1 => by
      refine Prog.Leads.bind (Prog.Leads.attempt h) fun err => ?_
      cases err with
      | ok u => exact Prog.Leads.pure (fun _ hs => hs) ()
      | error e =>
          simp only
          split
          · exact retryOnConflict_leads h n
          · exact Prog.Leads.throw (fun _ hs => hs) e

def updateResource : Op ω Unit := withoutIstioEnv lib (retryOnConflict (r.send false) r.steps)

def updateResourceStatus : Op ω Unit := withoutIstioEnv lib (retryOnConflict (r.send true) r.steps)

/-- Look for the object until it is gone. -/
def waitForDeletion (req : Request) : ℕ → Op ω Unit
  | 0 => .throw { message := "timed out waiting for the condition" }
  | n + 1 => do
      let found ← (ask (r.client.get req)).attempt
      match found with
      | .error e => if e.kind = .notFound then pure () else .throw e
      | .ok o => do
          .modify fun s => { s with object := ⟨o, none⟩ }
          waitForDeletion req n

/-! ### Conditions -/

def setCondition (c : HelmAppCondition) : Op ω Unit := do
  let now ← ask fun w => ((.ok (r.now w).1, (r.now w).2) : Except GoError Time × ω)
  modifyStatus fun status => status.setCondition now c

def removeCondition (type : String) : Op ω Unit := modifyStatus fun status => status.removeCondition type

/-- Report an error in the status and return it. -/
def fail {α : Type} (type reason : String) (e : GoError) : Op ω α := do
  r.setCondition { type := type, status := "True", reason := reason, message := e.message }
  let _ ← (r.updateResourceStatus lib).attempt
  .throw e

def runHook (release : Release) : Op ω Unit :=
  match r.releaseHook with
  | none => pure ()
  | some hook => ask (hook release)

/-- Report a release in the status. -/
def deployed (reason : String) (release : Release) : Op ω Time := do
  r.setCondition { type := "Deployed", status := "True", reason := reason,
                   message := release.notes.getD "" }
  modifyStatus fun status =>
    { status with deployedRelease := some ⟨release.name, release.manifest⟩ }
  r.updateResourceStatus lib
  pure r.reconcilePeriod

def finalizer : String := "uninstall-helm-release"

def addFinalizer : Op ω Unit := do
  modifyObject (lib.addFinalizer finalizer)
  r.updateResource lib

/-- Add the finalizer unless it is there. -/
def ensureFinalizer : Op ω Unit := do
  let finalizers ← readObject lib.getFinalizers
  if finalizer ∉ finalizers then r.addFinalizer lib else pure ()

/-! ### The paths of a reconciliation -/

/-- What the status says about an attempt to uninstall the release. -/
def uninstalled (outcome : Except GoError Release) : Op ω Unit :=
  match outcome with
  | .error e =>
      if e.kind ≠ .releaseNotFound then r.fail lib "ReleaseFailed" "UninstallError" e
      else removeCondition "ReleaseFailed"
  | .ok _ => do
      removeCondition "ReleaseFailed"
      r.setCondition { type := "Deployed", status := "False", reason := "UninstallSuccessful" }
      modifyStatus fun status => { status with deployedRelease := none }

/-- The resource is being deleted. -/
def uninstall (req : Request) (manager : Manager ω) : Op ω Time := do
  let finalizers ← readObject lib.getFinalizers
  if finalizer ∉ finalizers then pure 0 else do
    let outcome ← (ask manager.uninstallRelease).attempt
    r.uninstalled lib outcome
    r.updateResourceStatus lib
    modifyObject (lib.removeFinalizer finalizer)
    r.updateResource lib
    r.waitForDeletion req r.polls
    pure 0

def install (manager : Manager ω) : Op ω Time := do
  let installed ← (ask manager.installRelease).attempt
  match installed with
  | .error e => r.fail lib "ReleaseFailed" "InstallError" e
  | .ok release => do
      removeCondition "ReleaseFailed"
      r.addFinalizer lib
      r.runHook release
      r.deployed lib "InstallSuccessful" release

/-- Whether the annotation asks to force an upgrade. -/
def hasHelmUpgradeForceAnnotation (o : Json) : Bool :=
  lib.getAnnotation "helm.operator-sdk/upgrade-force" o ∈ ["1", "t", "T", "TRUE", "true", "True"]

def update (manager : Manager ω) : Op ω Time := do
  let force ← readObject ( hasHelmUpgradeForceAnnotation lib)
  let updated ← (ask (manager.updateRelease force)).attempt
  match updated with
  | .error e => r.fail lib "ReleaseFailed" "UpdateError" e
  | .ok release => do
      removeCondition "ReleaseFailed"
      r.runHook release
      r.deployed lib "UpdateSuccessful" release

/-- The release is as it should be; its resources are looked after. -/
def reconcileRelease (manager : Manager ω) : Op ω Time := do
  removeCondition "ReleaseFailed"
  let expected ← (ask manager.reconcileRelease).attempt
  match expected with
  | .error e => r.fail lib "Irreconcilable" "ReconcileError" e
  | .ok release => do
      removeCondition "Irreconcilable"
      r.runHook release
      modifyStatus fun status =>
        { status with deployedRelease := some ⟨release.name, release.manifest⟩ }
      r.updateResourceStatus lib
      pure r.reconcilePeriod

/-- The release is kept in line with the resource. -/
def maintain (manager : Manager ω) : Op ω Time := do
  r.setCondition { type := "Initialized", status := "True" }
  let synced ← (ask manager.sync).attempt
  match synced with
  | .error e => r.fail lib "Irreconcilable" "ReconcileError" e
  | .ok () => do
      removeCondition "Irreconcilable"
      let installed ← .read fun s => manager.isInstalled s.world
      if !installed then r.install lib manager else do
        r.ensureFinalizer lib
        let required ← .read fun s => manager.isUpdateRequired s.world
        if required then r.update lib manager else r.reconcileRelease lib manager

/-- `types.StatusFor`. -/
def statusFor (o : CustomResource) : HelmAppStatus :=
  match o.status, nested ["status"] o.object with
  | some status, _ => status
  | none, some (.obj fs) => match r.fromUnstructured fs with
    | .ok status => status
    | .error _ => {}
  | none, _ => {}

/-- Behind the injection. -/
def manage (req : Request) : Op ω Time := do
  let cr ← .read OpState.object
  let manager ← ask (r.newManager cr)
  modifyStatus fun _ => { r.statusFor cr with apps := getAppList lib cr.object }
  let deletionTimestamp ← readObject lib.getDeletionTimestamp
  match deletionTimestamp with
  | some _ => r.uninstall lib req manager
  | none => r.maintain lib manager

/-- The reconciliation of an object that was read. -/
def reconcileObject (req : Request) (o : Json) : Op ω Time := do
  .modify fun s => { s with object := ⟨o, none⟩, stored := o }
  r.setupNamespaceAndIstioEnv lib req
  r.manage lib req

def reconcile (req : Request) : Op ω Time := do
  let found ← (ask (r.client.get req)).attempt
  match found with
  | .error e => if e.kind = .notFound then pure 0 else .throw e
  | .ok o => r.reconcileObject lib req o

end HelmOperatorReconciler

end Powerful.Helm
