import Mathlib
import Powerful.Outcomes
import Powerful.Reconcile

/-! # What a reconciliation asks of the release manager

`logged` runs a reconciler in a world that keeps a list of the calls of the release manager, with
their outcomes and the worlds before and after them; nothing that the reconciler does reads the list.
A `Timeline` is what a world with such a list has gone through: calls, and between them other things
that a reconciliation does to the world.

`Still` and `Ambient` are the invariants that everything but the manager keeps, whatever it does to
the object, and to the object and the status; `Kept` are those that the calls keep as well.  Each part
of a reconciliation has one lemma about them. -/

namespace Powerful.Helm

open Resumption

/-! ### A log of the calls -/

inductive ManagerCall where
  | uninstallRelease
  | sync
  | installRelease
  | updateRelease (force : Bool)
  | reconcileRelease
  deriving DecidableEq

/-- A call, with the release that it gives or its error; `sync` gives none. -/
structure CallRecord (ω : Type) where
  call : ManagerCall
  outcome : Except GoError (Option Release)
  before : ω
  after : ω

structure Logged (ω : Type) where
  calls : List (CallRecord ω) := []
  world : ω

variable {ω : Type}

/-- Make a call. -/
def Manager.answer (m : Manager ω) : ManagerCall → ω → Except GoError (Option Release) × ω
  | .uninstallRelease, w => ((m.uninstallRelease w).1.map some, (m.uninstallRelease w).2)
  | .sync, w => ((m.sync w).1.map fun _ => none, (m.sync w).2)
  | .installRelease, w => ((m.installRelease w).1.map some, (m.installRelease w).2)
  | .updateRelease force, w => ((m.updateRelease force w).1.map some, (m.updateRelease force w).2)
  | .reconcileRelease, w => ((m.reconcileRelease w).1.map some, (m.reconcileRelease w).2)

/-- Ask a part of the world. -/
def onPart {σ α : Type} (view : σ → ω) (put : σ → ω → σ) (f : ω → α × ω) (s : σ) : α × σ :=
  ((f (view s)).1, put s (f (view s)).2)

/-- A client of a part of the world. -/
def Client.on {σ : Type} (c : Client ω) (view : σ → ω) (put : σ → ω → σ) : Client σ where
  get req := onPart view put (c.get req)
  update stored o := onPart view put (c.update stored o)
  updateStatus stored o := onPart view put (c.updateStatus stored o)
  patch ns text := onPart view put (c.patch ns text)
  update_spec stored o s o' _ h := by
    have hanswer : (c.update stored o (view s)).1 = .ok o' := congrArg Prod.fst h
    exact c.update_spec stored o (view s) o' _ (Prod.ext hanswer rfl)
  updateStatus_spec stored o s o' _ h := by
    have hanswer : (c.updateStatus stored o (view s)).1 = .ok o' := congrArg Prod.fst h
    exact c.updateStatus_spec stored o (view s) o' _ (Prod.ext hanswer rfl)

/-- Ask the world; the log stays as it is. -/
abbrev Logged.lift {α : Type} (f : ω → α × ω) : Logged ω → α × Logged ω :=
  onPart Logged.world (fun l w => { l with world := w }) f

/-- Ask the world, and note down the call. -/
def Logged.note {α : Type} (call : ManagerCall) (release : α → Option Release)
    (f : ω → Except GoError α × ω) (l : Logged ω) : Except GoError α × Logged ω :=
  let (outcome, w) := f l.world
  (outcome, ⟨l.calls ++ [⟨call, outcome.map release, l.world, w⟩], w⟩)

def Manager.logged (m : Manager ω) : Manager (Logged ω) where
  uninstallRelease := Logged.note .uninstallRelease some m.uninstallRelease
  sync := Logged.note .sync (fun _ => none) m.sync
  isInstalled l := m.isInstalled l.world
  installRelease := Logged.note .installRelease some m.installRelease
  isUpdateRequired l := m.isUpdateRequired l.world
  updateRelease force := Logged.note (.updateRelease force) some (m.updateRelease force)
  reconcileRelease := Logged.note .reconcileRelease some m.reconcileRelease

namespace HelmOperatorReconciler

def logged (r : HelmOperatorReconciler ω) : HelmOperatorReconciler (Logged ω) where
  client := r.client.on Logged.world fun l w => { l with world := w }
  newManager cr := Logged.lift fun w => ((r.newManager cr w).1.map Manager.logged, (r.newManager cr w).2)
  releaseHook := r.releaseHook.map fun hook release => Logged.lift (hook release)
  reconcilePeriod := r.reconcilePeriod
  fromUnstructured := r.fromUnstructured
  now := Logged.lift r.now
  steps := r.steps
  polls := r.polls

end HelmOperatorReconciler

/-! ### What the world goes through -/

/-- One of the things that a reconciliation does to the world beside making and calling the manager. -/
inductive Ambiently (r : HelmOperatorReconciler ω) : ω → ω → Prop
  | get (req w) : Ambiently r w (r.client.get req w).2
  | update (stored o w) : Ambiently r w (r.client.update stored o w).2
  | updateStatus (stored o w) : Ambiently r w (r.client.updateStatus stored o w).2
  | patch (ns text w) : Ambiently r w (r.client.patch ns text w).2
  | hook {hook} (h : r.releaseHook = some hook) (release w) : Ambiently r w (hook release w).2
  | now (w) : Ambiently r w (r.now w).2

/-- The world that some of them lead to. -/
abbrev Follows (r : HelmOperatorReconciler ω) : ω → ω → Prop := Relation.ReflTransGen (Ambiently r)

/-- None of them breaks the property of the world. -/
def Calm (r : HelmOperatorReconciler ω) (P : ω → Prop) : Prop :=
  ∀ w w', Ambiently r w w' → P w → P w'

theorem Calm.follows {r : HelmOperatorReconciler ω} {P : ω → Prop} (hP : Calm r P) {w w' : ω}
    (h : Follows r w w') (hw : P w) : P w' := by
  induction h with
  | refl => exact hw
  | tail _ hstep ih => exact hP _ _ hstep ih

theorem calm_follows (r : HelmOperatorReconciler ω) (P : ω → Prop) :
    Calm r (fun w => ∃ w₀, P w₀ ∧ Follows r w₀ w) :=
  fun _ _ hstep ⟨w₀, hw₀, h⟩ => ⟨w₀, hw₀, h.tail hstep⟩

/-- From the world `w₀` on `calls` were made of the manager, and else only ambient things done. -/
inductive Timeline (r : HelmOperatorReconciler ω) (m : Manager ω) (w₀ : ω) :
    List (CallRecord ω) → ω → Prop
  | start : Timeline r m w₀ [] w₀
  | ambient {calls w w'} (before : Timeline r m w₀ calls w) (h : Ambiently r w w') :
      Timeline r m w₀ calls w'
  | call {calls w} (before : Timeline r m w₀ calls w) (c : ManagerCall) :
      Timeline r m w₀ (calls ++ [⟨c, (m.answer c w).1, w, (m.answer c w).2⟩]) (m.answer c w).2

namespace Timeline
variable {r : HelmOperatorReconciler ω} {m : Manager ω} {w₀ w : ω} {calls : List (CallRecord ω)}

/-- Before the first call. -/
theorem follows (h : Timeline r m w₀ calls w) (hcalls : calls = []) : Follows r w₀ w := by
  induction h with
  | start => exact .refl
  | ambient _ hstep ih => exact (ih hcalls).tail hstep
  | call => exact absurd hcalls (by simp)

/-- The last call, what came before it and what has come since. -/
theorem last {c : CallRecord ω} {prior : List (CallRecord ω)} (h : Timeline r m w₀ calls w)
    (hcalls : calls = prior ++ [c]) :
    m.answer c.call c.before = (c.outcome, c.after) ∧ Timeline r m w₀ prior c.before ∧
      Follows r c.after w := by
  induction h with
  | start => exact absurd hcalls (by simp)
  | ambient _ hstep ih =>
      obtain ⟨hanswer, hprior, hsince⟩ := ih hcalls
      exact ⟨hanswer, hprior, hsince.tail hstep⟩
  | call hbefore call =>
      obtain ⟨rfl, hlast⟩ := List.append_inj' hcalls rfl
      obtain rfl := List.singleton_inj.mp hlast
      exact ⟨rfl, hbefore, .refl⟩

end Timeline

/-- The manager of the logged world is one that notes down its calls. -/
theorem HelmOperatorReconciler.logged_newManager {r : HelmOperatorReconciler ω} {cr : CustomResource}
    {l : Logged ω} {mgr : Manager (Logged ω)} (h : (r.logged.newManager cr l).1 = .ok mgr) :
    ∃ m, mgr = m.logged ∧
      r.newManager cr l.world = (.ok m, (r.logged.newManager cr l).2.world) := by
  simp only [HelmOperatorReconciler.logged, onPart] at h ⊢
  cases hnew : r.newManager cr l.world with
  | mk outcome w =>
    rw [hnew] at h
    cases outcome with
    | error e => cases h
    | ok m => exact ⟨m, (Except.ok.inj h).symm, rfl⟩

theorem HelmOperatorReconciler.logged_newManager_error {r : HelmOperatorReconciler ω}
    {cr : CustomResource} {l : Logged ω} {e : GoError} (h : (r.logged.newManager cr l).1 = .error e) :
    r.newManager cr l.world = (.error e, (r.logged.newManager cr l).2.world) := by
  simp only [HelmOperatorReconciler.logged, onPart] at h ⊢
  cases hnew : r.newManager cr l.world with
  | mk outcome w =>
    rw [hnew] at h
    cases outcome with
    | error e' => exact Prod.ext (congrArg Except.error (Except.error.inj h)) rfl
    | ok m => cases h

/-! ### Invariants of everything but the manager -/

section ambient
open Prog

/-- Nothing that a reconciliation asks for or does to the object breaks the invariant; making the
manager is left out. -/
structure Still (r : HelmOperatorReconciler ω) (I : OpState ω → Prop) : Prop where
  object : ∀ s o, I s → I { s with object := o }
  send : ∀ toStatus, Leads I I (r.send toStatus)
  now : ∀ s, I s → I { s with world := (r.now s.world).2 }
  hook : ∀ hook, r.releaseHook = some hook → ∀ release s, I s →
    I { s with world := (hook release s.world).2 }
  get : ∀ req s, I s → I { s with world := (r.client.get req s.world).2 }
  patch : ∀ ns text s, I s → I { s with world := (r.client.patch ns text s.world).2 }

/-- Nor does anything that it does to the status. -/
structure Ambient (r : HelmOperatorReconciler ω) (I : OpState ω → Prop) : Prop extends Still r I where
  status : ∀ s st, I s → I { s with status := st }

namespace Still
variable {r : HelmOperatorReconciler ω} {I : OpState ω → Prop} (h : Still r I) (lib : Unstructured)

include h

theorem modifyObject (f : Json → Json) : Leads I I (modifyObject f) :=
  Leads.modify fun s hs => h.object s _ hs

theorem withoutIstioEnv {p : Op ω Unit} (hp : Leads I I p) :
    Leads I I (Helm.withoutIstioEnv lib p) := by
  refine Leads.bind (Leads.read (fun _ hs => hs) _) fun istioEnv => ?_
  refine Leads.bind (h.modifyObject _) fun _ => ?_
  refine Leads.bind (Leads.attempt hp) fun err => ?_
  refine Leads.bind (h.modifyObject _) fun _ => ?_
  exact Leads.ofExcept (fun _ hs => hs) err

theorem updateResource : Leads I I (r.updateResource lib) :=
  h.withoutIstioEnv lib (HelmOperatorReconciler.retryOnConflict_leads (h.send false) r.steps)

theorem updateResourceStatus : Leads I I (r.updateResourceStatus lib) :=
  h.withoutIstioEnv lib (HelmOperatorReconciler.retryOnConflict_leads (h.send true) r.steps)

theorem runHook (release : Release) : Leads I I (r.runHook release) := by
  unfold HelmOperatorReconciler.runHook
  cases hhook : r.releaseHook with
  | none => exact Leads.pure (fun _ hs => hs) ()
  | some hook => exact Leads.atomic fun s hs => h.hook hook hhook release s hs

theorem addFinalizer : Leads I I (r.addFinalizer lib) :=
  Leads.bind (h.modifyObject _) fun _ => h.updateResource lib

theorem ensureFinalizer : Leads I I (r.ensureFinalizer lib) := by
  refine Leads.bind (Leads.read (fun _ hs => hs) _) fun finalizers => ?_
  split
  · exact h.addFinalizer lib
  · exact Leads.pure (fun _ hs => hs) ()

theorem waitForDeletion (req : Request) : ∀ n, Leads I I (r.waitForDeletion req n)
  | 0 => Leads.throw (fun _ hs => hs) _
  | n + 1 => by
      refine Leads.bind (Leads.attempt (Leads.atomic (h.get req))) fun found => ?_
      cases found with
      | error e =>
          simp only
          split
          · exact Leads.pure (fun _ hs => hs) ()
          · exact Leads.throw (fun _ hs => hs) e
      | ok o => exact Leads.bind (Leads.modify fun s hs => h.object s _ hs) fun _ => waitForDeletion req n

theorem setupNamespaceAndIstioEnv (req : Request) :
    Leads I I (r.setupNamespaceAndIstioEnv lib req) := by
  refine Leads.bind (h.modifyObject _) fun _ => ?_
  refine Leads.bind (Leads.read (fun _ hs => hs) _) fun env => ?_
  refine Leads.bind (h.modifyObject _) fun _ => ?_
  refine Leads.bind (Leads.atomic fun s hs => h.patch _ _ s hs) fun _ => ?_
  exact Leads.pure (fun _ hs => hs) ()

end Still

namespace Ambient
variable {r : HelmOperatorReconciler ω} {I : OpState ω → Prop} (h : Ambient r I) (lib : Unstructured)

include h

theorem modifyStatus (f : HelmAppStatus → HelmAppStatus) : Leads I I (modifyStatus f) :=
  Leads.modify fun s hs => h.status s _ hs

theorem setCondition (c : HelmAppCondition) : Leads I I (r.setCondition c) :=
  Leads.bind (Leads.atomic h.now) fun _ => h.modifyStatus _

theorem fail {α : Type} (type reason : String) (e : GoError) :
    Leads I I (r.fail lib type reason e : Op ω α) :=
  Leads.bind (h.setCondition _) fun _ =>
    Leads.bind (Leads.attempt (h.updateResourceStatus lib)) fun _ => Leads.throw (fun _ hs => hs) e

theorem deployed (reason : String) (release : Release) : Leads I I (r.deployed lib reason release) :=
  Leads.bind (h.setCondition _) fun _ =>
    Leads.bind (h.modifyStatus _) fun _ =>
      Leads.bind (h.updateResourceStatus lib) fun _ => Leads.pure (fun _ hs => hs) _

theorem uninstalled (outcome : Except GoError Release) : Leads I I (r.uninstalled lib outcome) := by
  cases outcome with
  | error e =>
      unfold HelmOperatorReconciler.uninstalled
      simp only
      split
      · exact h.fail lib _ _ e
      · exact h.modifyStatus _
  | ok release =>
      exact Leads.bind (h.modifyStatus _) fun _ => Leads.bind (h.setCondition _) fun _ => h.modifyStatus _

/-- A property of the status is kept by what does not change the status. -/
theorem withStatus (P : HelmAppStatus → Prop) : Still r (fun s => I s ∧ P s.status) where
  object s o hs := ⟨h.object s o hs.1, hs.2⟩
  send toStatus s hs := by
    refine ⟨h.send toStatus s hs.1, ?_⟩
    unfold HelmOperatorReconciler.send
    rw [run_atomic]
    simp only
    split <;> exact hs.2
  now s hs := ⟨h.now s hs.1, hs.2⟩
  hook hook hhook release s hs := ⟨h.hook hook hhook release s hs.1, hs.2⟩
  get req s hs := ⟨h.get req s hs.1, hs.2⟩
  patch ns text s hs := ⟨h.patch ns text s hs.1, hs.2⟩

end Ambient

/-- Nor do the calls of the manager. -/
structure Kept (r : HelmOperatorReconciler ω) (m : Manager ω) (I : OpState ω → Prop) : Prop
    extends Ambient r I where
  call : ∀ c s, I s → I { s with world := (m.answer c s.world).2 }

namespace Kept
variable {r : HelmOperatorReconciler ω} {m : Manager ω} {I : OpState ω → Prop} (h : Kept r m I)
  (lib : Unstructured)

include h

theorem uninstall (req : Request) : Leads I I (r.uninstall lib req m) := by
  refine Leads.bind (Leads.read (fun _ hs => hs) _) fun finalizers => ?_
  split
  · exact Leads.pure (fun _ hs => hs) _
  · refine Leads.bind (Leads.attempt (Leads.atomic (h.call .uninstallRelease))) fun outcome => ?_
    refine Leads.bind (h.uninstalled lib outcome) fun _ => ?_
    refine Leads.bind (h.updateResourceStatus lib) fun _ => ?_
    refine Leads.bind (h.modifyObject _) fun _ => ?_
    refine Leads.bind (h.updateResource lib) fun _ => ?_
    refine Leads.bind (h.waitForDeletion req _) fun _ => ?_
    exact Leads.pure (fun _ hs => hs) _

theorem install : Leads I I (r.install lib m) := by
  refine Leads.bind (Leads.attempt (Leads.atomic (h.call .installRelease))) fun installed => ?_
  cases installed with
  | error e => exact h.fail lib _ _ e
  | ok release =>
      refine Leads.bind (h.modifyStatus _) fun _ => ?_
      refine Leads.bind (h.addFinalizer lib) fun _ => ?_
      refine Leads.bind (h.runHook release) fun _ => ?_
      exact h.deployed lib _ release

theorem update : Leads I I (r.update lib m) := by
  refine Leads.bind (Leads.read (fun _ hs => hs) _) fun force => ?_
  refine Leads.bind (Leads.attempt (Leads.atomic (h.call (.updateRelease force)))) fun updated => ?_
  cases updated with
  | error e => exact h.fail lib _ _ e
  | ok release =>
      refine Leads.bind (h.modifyStatus _) fun _ => ?_
      refine Leads.bind (h.runHook release) fun _ => ?_
      exact h.deployed lib _ release

theorem reconcileRelease : Leads I I (r.reconcileRelease lib m) := by
  refine Leads.bind (h.modifyStatus _) fun _ => ?_
  refine Leads.bind (Leads.attempt (Leads.atomic (h.call .reconcileRelease))) fun expected => ?_
  cases expected with
  | error e => exact h.fail lib _ _ e
  | ok release =>
      refine Leads.bind (h.modifyStatus _) fun _ => ?_
      refine Leads.bind (h.runHook release) fun _ => ?_
      refine Leads.bind (h.modifyStatus _) fun _ => ?_
      refine Leads.bind (h.updateResourceStatus lib) fun _ => ?_
      exact Leads.pure (fun _ hs => hs) _

theorem maintain : Leads I I (r.maintain lib m) := by
  refine Leads.bind (h.setCondition _) fun _ => ?_
  refine Leads.bind (Leads.attempt (Leads.atomic (h.call .sync))) fun synced => ?_
  cases synced with
  | error e => exact h.fail lib _ _ e
  | ok u =>
      refine Leads.bind (h.modifyStatus _) fun _ => ?_
      refine Leads.bind (Leads.read (fun _ hs => hs) _) fun installed => ?_
      cases installed with
      | false => exact h.install lib
      | true =>
          refine Leads.bind (h.ensureFinalizer lib) fun _ => ?_
          refine Leads.bind (Leads.read (fun _ hs => hs) _) fun required => ?_
          split
          · exact h.update lib
          · exact h.reconcileRelease lib

end Kept

/-- A property of the log and the world that ambient things keep. -/
theorem logged_ambient {r : HelmOperatorReconciler ω} {J : List (CallRecord ω) → ω → Prop}
    (h : ∀ calls, Calm r (J calls)) :
    Ambient r.logged (fun s => J s.world.calls s.world.world) where
  object _ _ hs := hs
  status _ _ hs := hs
  send toStatus := by
    refine Leads.atomic fun s hs => ?_
    cases toStatus
    all_goals
      simp only [Bool.false_eq_true, if_false, if_true]
      split
      all_goals
        rename_i hanswer
        obtain rfl := congrArg Prod.snd hanswer
    · exact h _ _ _ (.update _ _ _) hs
    · exact h _ _ _ (.update _ _ _) hs
    · exact h _ _ _ (.updateStatus _ _ _) hs
    · exact h _ _ _ (.updateStatus _ _ _) hs
  now _ hs := h _ _ _ (.now _) hs
  hook hook hhook release s hs := by
    obtain ⟨f, hf, rfl⟩ := Option.map_eq_some_iff.mp hhook
    exact h _ _ _ (.hook hf release _) hs
  get _ _ hs := h _ _ _ (.get _ _) hs
  patch _ _ _ hs := h _ _ _ (.patch _ _ _) hs

/-- The log is touched by the manager only. -/
theorem calls_ambient (r : HelmOperatorReconciler ω) (P : List (CallRecord ω) → Prop) :
    Ambient r.logged (fun s => P s.world.calls) :=
  logged_ambient (J := fun calls _ => P calls) fun _ _ _ _ hs => hs

theorem timeline_kept (r : HelmOperatorReconciler ω) (m : Manager ω) (w₀ : ω) :
    Kept r.logged m.logged (fun s => Timeline r m w₀ s.world.calls s.world.world) where
  toAmbient := logged_ambient fun _ _ _ hstep hs => hs.ambient hstep
  call c s hs := by cases c <;> exact hs.call _

end ambient

end Powerful.Helm
