import Mathlib
import Powerful.Reconcile
import Powerful.Fleets

/-! # Leader election

The pods of an operator agree on a leader by a lock, a ConfigMap that is owned by the leader's pod.
`become` runs in each of them: it looks whether the lock is its own already, and else tries to create it
until it is.  The cluster's garbage collector removes the lock once its owner is gone; `become` itself
only removes pods that have been evicted.

A `Fleet` of processes, one in a pod at a time, is started and killed in any order while pods come, fail
and go.  `leader_unique` says that there is at most one leader at any time, `leader_for_life` that the
lock stays with a leader's pod as long as the pod is there. -/

namespace Powerful.Helm

open Resumption

/-! ### What the operator runs in -/

/-- `os.IsNotExist` tells the errors of a file that is not there from the others. -/
inductive FileError where
  | notExist
  | other (e : GoError)

structure OperatorEnv where
  forceRunMode : String := ""
  namespaceFile : Except FileError String
  podName : String

inductive NamespaceError where
  | errNoNamespace
  | errRunLocal
  | other (e : GoError)

def errRunLocal : GoError := { message := "operator run mode forced to local" }

/-- `unicode.IsSpace` -/
def isSpace (c : Char) : Bool :=
  c ∈ ['\t', '\n', '\x0b', '\x0c', '\r', ' ', '\u0085', '\u00a0', '\u1680', '\u2028', '\u2029', '\u202f',
    '\u205f', '\u3000'] || (0x2000 ≤ c.toNat && c.toNat ≤ 0x200a)

def trimSpace (s : String) : String :=
  String.ofList (((s.toList.dropWhile isSpace).reverse.dropWhile isSpace).reverse)

namespace OperatorEnv
variable (env : OperatorEnv)

def isRunModeLocal : Bool := env.forceRunMode = "local"

def getOperatorNamespace : Except NamespaceError String :=
  if env.isRunModeLocal then .error .errRunLocal
  else match env.namespaceFile with
    | .error .notExist => .error .errNoNamespace
    | .error (.other e) => .error (.other e)
    | .ok nsBytes => .ok (trimSpace nsBytes)

end OperatorEnv

inductive PodPhase where
  | pending
  | running
  | succeeded
  | failed
  | unknown
  deriving DecidableEq

structure Pod where
  namespace_ : String
  name : String
  uid : String
  phase : PodPhase := .running
  reason : String := ""
  deletionTimestamp : Option ℤ := none
  deriving DecidableEq

structure OwnerReference where
  apiVersion : String
  kind : String
  name : String
  uid : String
  deriving DecidableEq

def ownerRef (pod : Pod) : OwnerReference := ⟨"v1", "Pod", pod.name, pod.uid⟩

def isPodEvicted (pod : Pod) : Bool := pod.phase = .failed && pod.reason = "Evicted"

/-! ### Becoming the leader -/

variable {ω : Type}

/-- The API server as a pod's client shows it; of a ConfigMap only its owner references count.
`newClient` is what it takes to have a client. -/
structure LockClient (ω : Type) where
  newClient : ω → Except GoError Unit × ω
  getPod : Request → ω → Except GoError Pod × ω
  deletePod : Request → ω → Except GoError Unit × ω
  getConfigMap : Request → ω → Except GoError (List OwnerReference) × ω
  createConfigMap : Request → List OwnerReference → ω → Except GoError Unit × ω
  isAlreadyExists : GoError → Bool

def OperatorEnv.getPod (env : OperatorEnv) (c : LockClient ω) (ns : String) : Prog ω GoError Pod :=
  if env.isRunModeLocal then .throw errRunLocal
  else if env.podName = "" then
    .throw { message := "required env POD_NAME not set, please configure downward API" }
  else .atomic (c.getPod ⟨ns, env.podName⟩)

namespace LockClient
variable (c : LockClient ω)

def myOwnerRef (env : OperatorEnv) (ns : String) : Prog ω GoError OwnerReference := do
  let myPod ← env.getPod c ns
  pure (ownerRef myPod)

/-- A look at the pod that owned the lock when it was read. -/
def visitLeader (ns : String) (existingOwners : List OwnerReference) : Prog ω GoError Unit :=
  match existingOwners with
  | [owner] =>
      if owner.kind ≠ "Pod" then pure ()
      else do
        match ← (Prog.atomic (c.getPod ⟨ns, owner.name⟩)).attempt with
        | .ok leaderPod =>
            if isPodEvicted leaderPod ∧ leaderPod.deletionTimestamp = none then do
              -- the error of a deletion is only logged
              let _ ← (Prog.atomic (c.deletePod ⟨leaderPod.namespace_, leaderPod.name⟩)).attempt
              pure ()
            else pure ()
        | .error e => if e.kind = .notFound then pure () else .throw e
  | _ => pure ()

/-- One round of the loop; `next` is what the wait behind it leads to. -/
def tryLock (key : Request) (owner : OwnerReference) (existingOwners : List OwnerReference)
    (next : Prog ω GoError Unit) : Prog ω GoError Unit := do
  match ← (Prog.atomic (c.createConfigMap key [owner])).attempt with
  | .ok () => pure ()
  | .error e =>
      if c.isAlreadyExists e then do
        c.visitLeader key.namespace_ existingOwners
        next
      else .throw e

/-- The loop, in a context that is done behind `waits` waits. -/
def tryLocks (key : Request) (owner : OwnerReference) (existingOwners : List OwnerReference) :
    ℕ → Prog ω GoError Unit
  | 0 => c.tryLock key owner existingOwners (.throw { message := "context canceled" })
  | waits + 1 => c.tryLock key owner existingOwners (tryLocks key owner existingOwners waits)

def become (env : OperatorEnv) (lockName : String) (waits : ℕ) : Prog ω GoError Unit :=
  match env.getOperatorNamespace with
  | .error .errNoNamespace => pure ()
  | .error .errRunLocal => pure ()
  | .error (.other e) => .throw e
  | .ok ns => do
      .atomic c.newClient
      let owner ← c.myOwnerRef env ns
      match ← (Prog.atomic (c.getConfigMap ⟨ns, lockName⟩)).attempt with
      | .ok existing =>
          if existing.any fun existingOwner => existingOwner.name = owner.name then pure ()
          else c.tryLocks ⟨ns, lockName⟩ owner existing waits
      | .error e =>
          if e.kind = .notFound then c.tryLocks ⟨ns, lockName⟩ owner [] waits
          else .throw e

end LockClient

/-! ### The cluster -/

/-- What becomes of a name: it is given to one pod, if at all. -/
inductive Life where
  | unborn
  | present (pod : Pod)
  | gone
  deriving DecidableEq

/-- A pod that has failed does not run again. -/
inductive Life.Follows : Life → Life → Prop
  | unborn (l : Life) : Follows .unborn l
  | present {pod pod' : Pod} (href : ownerRef pod' = ownerRef pod)
      (hphase : pod.phase = .failed → pod'.phase = .failed) : Follows (.present pod) (.present pod')
  | gone (l : Life) : Follows l .gone

theorem Life.Follows.refl (l : Life) : l.Follows l := by
  cases l with
  | unborn => exact .unborn _
  | present pod => exact .present rfl id
  | gone => exact .gone _

theorem Life.Follows.trans {l l' l'' : Life} (h : l.Follows l') (h' : l'.Follows l'') : l.Follows l'' := by
  cases h with
  | unborn => exact .unborn _
  | present href hphase =>
      cases h' with
      | present href' hphase' => exact .present (href'.trans href) fun hfailed => hphase' (hphase hfailed)
      | gone => exact .gone _
  | gone =>
      cases h' with
      | gone => exact .gone _

/-- The pods of the operator's namespace by name, and the owners of the lock. -/
structure Cluster where
  life : String → Life
  lock : Option (List OwnerReference)

namespace Cluster

/-- In the pod `n`, to which `owner` refers, a process may run. -/
def Hosted (s : Cluster) (n : String) (owner : OwnerReference) : Prop :=
  ∃ pod, s.life n = .present pod ∧ pod.name = n ∧ pod.phase ≠ .failed ∧ ownerRef pod = owner

def Spent (s : Cluster) (n : String) : Prop :=
  s.life n = .gone ∨ ∃ pod, s.life n = .present pod ∧ pod.phase = .failed

/-- A lock that has the name of `owner` is `owner`'s. -/
def Fair (s : Cluster) (owner : OwnerReference) : Prop :=
  ∀ owners, s.lock = some owners → ∀ o ∈ owners, o.name = owner.name → owners = [owner]

/-- The lock has one owner, a pod that there is or was. -/
def Owned (s : Cluster) : Prop :=
  ∀ owners, s.lock = some owners → ∃ owner, owners = [owner] ∧
    (s.life owner.name = .gone ∨ ∃ pod, s.life owner.name = .present pod ∧ ownerRef pod = owner)

/-- What happens besides `become` while processes run in the pods `on`.  Pods come, change and go; one
that hosts a process is there and has not failed.  The lock is removed if no pod is its owner. -/
structure Moves (on : String → Prop) (s t : Cluster) : Prop where
  follows : ∀ n, (s.life n).Follows (t.life n)
  hosted : ∀ n, on n → ∀ owner, s.Hosted n owner → t.Hosted n owner
  collect : t.lock = s.lock ∨ t.lock = none ∧ ∃ owners, s.lock = some owners ∧
    ∀ owner ∈ owners, ∀ n pod, s.life n = .present pod → pod.uid ≠ owner.uid

/-- What a process in the pod `n` relies on. -/
structure Kept (n : String) (s t : Cluster) : Prop where
  spent : ∀ m, s.Spent m → t.Spent m
  hosted : ∀ owner, s.Hosted n owner → t.Hosted n owner
  fair : ∀ owner, s.Hosted n owner → s.Fair owner → t.Fair owner
  lock : ∀ owner, s.Hosted n owner → s.lock = some [owner] → t.lock = some [owner]

/-- What it does itself. -/
structure Own (n : String) (s t : Cluster) : Prop where
  life : ∀ m, t.life m = s.life m ∨ s.Spent m ∧ (s.life m).Follows (t.life m)
  lock : t.lock = s.lock ∨ s.lock = none ∧ ∃ owner, s.Hosted n owner ∧ t.lock = some [owner]

variable {s t u : Cluster} {n : String} {owner : OwnerReference}

theorem Hosted.name_eq (h : s.Hosted n owner) : owner.name = n := by
  obtain ⟨pod, -, hname, -, rfl⟩ := h
  exact hname

theorem Hosted.eq (h : s.Hosted n owner) {pod : Pod} (hpod : s.life n = .present pod) :
    ownerRef pod = owner := by
  obtain ⟨pod', hpod', -, -, rfl⟩ := h
  rw [hpod'] at hpod
  rw [Life.present.inj hpod]

theorem not_spent {pod : Pod} (hpod : s.life n = .present pod) (hphase : pod.phase ≠ .failed) :
    ¬ s.Spent n := by
  rintro (hgone | ⟨pod', hpod', hfailed⟩)
  · rw [hpod] at hgone
    cases hgone
  · rw [hpod] at hpod'
    obtain rfl := Life.present.inj hpod'
    exact hphase hfailed

theorem Hosted.not_spent (h : s.Hosted n owner) : ¬ s.Spent n := by
  obtain ⟨pod, hpod, -, hphase, -⟩ := h
  exact Cluster.not_spent hpod hphase

theorem Spent.follows {m : String} (h : s.Spent m) (hlife : (s.life m).Follows (t.life m)) : t.Spent m := by
  rcases h with hgone | ⟨pod, hpod, hfailed⟩
  · rw [hgone] at hlife
    generalize ht : t.life m = l at hlife
    cases hlife with
    | gone => exact .inl ht
  · rw [hpod] at hlife
    generalize ht : t.life m = l at hlife
    cases hlife with
    | present _ hphase => exact .inr ⟨_, ht, hphase hfailed⟩
    | gone => exact .inl ht

instance (n : String) : IsPreorder Cluster (Kept n) where
  refl _ := ⟨fun _ => id, fun _ => id, fun _ _ => id, fun _ _ => id⟩
  trans _ _ _ hst htu :=
    ⟨fun m h => htu.spent m (hst.spent m h), fun owner h => htu.hosted owner (hst.hosted owner h),
      fun owner h hfair => htu.fair owner (hst.hosted owner h) (hst.fair owner h hfair),
      fun owner h hlock => htu.lock owner (hst.hosted owner h) (hst.lock owner h hlock)⟩

theorem Own.refl (n : String) (s : Cluster) : Own n s s := ⟨fun _ => .inl rfl, .inl rfl⟩

theorem Own.follows (h : Own n s t) (m : String) : (s.life m).Follows (t.life m) := by
  rcases h.life m with hsame | ⟨-, hfollows⟩
  · rw [hsame]
    exact .refl _
  · exact hfollows

theorem Own.hosted (h : Own n s t) {m : String} (hm : s.Hosted m owner) : t.Hosted m owner := by
  rcases h.life m with hsame | ⟨hspent, -⟩
  · obtain ⟨pod, hpod, hrest⟩ := hm
    exact ⟨pod, hsame.trans hpod, hrest⟩
  · exact absurd hspent hm.not_spent

/-- A step in one pod is nothing that a process in another one would notice. -/
theorem Own.kept (h : Own n s t) {m : String} (hne : n ≠ m) : Kept m s t where
  spent k hk := hk.follows (h.follows k)
  hosted owner := h.hosted
  fair owner hm hfair owners howners o ho hname := by
    rcases h.lock with hsame | ⟨-, owner', hn, hlock⟩
    · exact hfair owners (hsame.symm.trans howners) o ho hname
    · rw [hlock] at howners
      obtain rfl := Option.some.inj howners
      rw [List.mem_singleton.mp ho, hn.name_eq, hm.name_eq] at hname
      exact absurd hname hne
  lock owner _ hlock := by
    rcases h.lock with hsame | ⟨hnone, -⟩
    · exact hsame.trans hlock
    · rw [hnone] at hlock
      cases hlock

theorem Moves.kept {on : String → Prop} (h : Moves on s t) {n : String} (hn : on n) : Kept n s t where
  spent m hm := hm.follows (h.follows m)
  hosted := h.hosted n hn
  fair owner _ hfair owners howners := by
    rcases h.collect with hsame | ⟨hnone, -⟩
    · exact hfair owners (hsame.symm.trans howners)
    · rw [hnone] at howners
      cases howners
  lock owner hhosted hlock := by
    rcases h.collect with hsame | ⟨-, owners, howners, huid⟩
    · exact hsame.trans hlock
    · obtain ⟨pod, hpod, -, -, rfl⟩ := hhosted
      rw [hlock] at howners
      obtain rfl := Option.some.inj howners
      exact absurd rfl (huid _ (List.mem_singleton_self _) n pod hpod)

/-- An owner of the lock is the same pod as long as that is there. -/
theorem Owned.of_follows (h : s.Owned) (hlife : ∀ m, (s.life m).Follows (t.life m))
    (hlock : t.lock = s.lock) : t.Owned := by
  intro owners howners
  obtain ⟨owner, rfl, howner⟩ := h owners (hlock.symm.trans howners)
  refine ⟨owner, rfl, ?_⟩
  have hfollows := hlife owner.name
  generalize ht : t.life owner.name = l at hfollows
  rcases howner with hgone | ⟨pod, hpod, href⟩
  · rw [hgone] at hfollows
    cases hfollows with
    | gone => exact .inl rfl
  · rw [hpod] at hfollows
    cases hfollows with
    | present href' => exact .inr ⟨_, rfl, href'.trans href⟩
    | gone => exact .inl rfl

theorem owned_of_hosted (h : s.Hosted n owner) (hlock : s.lock = some [owner]) : s.Owned := by
  intro owners howners
  rw [hlock] at howners
  refine ⟨owner, (Option.some.inj howners).symm, .inr ?_⟩
  rw [h.name_eq]
  obtain ⟨pod, hpod, -, -, href⟩ := h
  exact ⟨pod, hpod, href⟩

theorem Own.owned (h : Own n s t) (hs : s.Owned) : t.Owned := by
  rcases h.lock with hsame | ⟨-, owner, hn, hlock⟩
  · exact hs.of_follows h.follows hsame
  · exact owned_of_hosted (h.hosted hn) hlock

theorem Moves.owned {on : String → Prop} (h : Moves on s t) (hs : s.Owned) : t.Owned := by
  rcases h.collect with hsame | ⟨hnone, -⟩
  · exact hs.of_follows h.follows hsame
  · intro owners howners
    rw [hnone] at howners
    cases howners

theorem Owned.fair (h : s.Owned) (hn : s.Hosted n owner) : s.Fair owner := by
  intro owners howners o ho hname
  obtain ⟨o', rfl, ho'⟩ := h owners howners
  obtain rfl := List.mem_singleton.mp ho
  rw [hname, hn.name_eq] at ho'
  rcases ho' with hgone | ⟨pod, hpod, rfl⟩
  · exact absurd (.inl hgone) hn.not_spent
  · rw [hn.eq hpod]

/-- As long as the pod is there the lock is its own. -/
def Held (s : Cluster) (n : String) (owner : OwnerReference) : Prop :=
  s.life n ≠ .unborn ∧ ∀ pod, s.life n = .present pod → ownerRef pod = owner ∧ s.lock = some [owner]

theorem Hosted.held (h : s.Hosted n owner) (hlock : s.lock = some [owner]) : s.Held n owner := by
  refine ⟨fun hunborn => ?_, fun pod hpod => ⟨h.eq hpod, hlock⟩⟩
  obtain ⟨pod, hpod, -⟩ := h
  rw [hpod] at hunborn
  cases hunborn

/-- A pod that is there was there before. -/
theorem Held.of_follows (h : s.Held n owner) (hlife : (s.life n).Follows (t.life n))
    (hlock : ∀ pod, s.life n = .present pod → ownerRef pod = owner → s.lock = some [owner] →
      t.lock = some [owner]) : t.Held n owner := by
  obtain ⟨hborn, hheld⟩ := h
  generalize hs : s.life n = l at hlife hborn hheld hlock
  generalize ht : t.life n = l' at hlife
  cases hlife with
  | unborn => exact absurd rfl hborn
  | @present pod pod' href =>
      obtain ⟨hpod, hmine⟩ := hheld pod rfl
      refine ⟨by rw [ht]; nofun, fun pod'' hpod'' => ⟨?_, hlock pod rfl hpod hmine⟩⟩
      obtain rfl := Life.present.inj (ht.symm.trans hpod'')
      exact href.trans hpod
  | gone => exact ⟨by rw [ht]; nofun, fun pod hpod => by rw [ht] at hpod; cases hpod⟩

theorem Held.own {m : String} (h : s.Held n owner) (hown : Own m s t) : t.Held n owner :=
  h.of_follows (hown.follows n) fun pod _ _ hmine => by
    rcases hown.lock with hsame | ⟨hnone, -⟩
    · exact hsame.trans hmine
    · rw [hnone] at hmine
      cases hmine

theorem Held.moves {on : String → Prop} (h : s.Held n owner) (hmove : Moves on s t) : t.Held n owner :=
  h.of_follows (hmove.follows n) fun pod hpod href hmine => by
    rcases hmove.collect with hsame | ⟨-, owners, howners, huid⟩
    · exact hsame.trans hmine
    · rw [hmine] at howners
      obtain rfl := Option.some.inj howners
      subst href
      exact absurd rfl (huid _ (List.mem_singleton_self _) n pod hpod)

end Cluster

/-! ### What a process does -/

/-- The process is an operator in the pod `n`, and sees the namespace. -/
structure OperatorEnv.InCluster (env : OperatorEnv) (ns n : String) : Prop where
  mode : env.forceRunMode ≠ "local"
  namespaceFile : env.namespaceFile ≠ .error .notExist
  trimmed : ∀ text, env.namespaceFile = .ok text → trimSpace text = ns
  podName : env.podName = n

namespace LockClient
variable (c : LockClient ω) (ns lockName : String) (view : ω → Cluster)

/-- What a request does to the cluster, and what its answer says; where a request fails it may have been
carried out all the same. -/
structure Serves : Prop where
  newClient : ∀ w, view (c.newClient w).2 = view w
  getPod : ∀ name w, view (c.getPod ⟨ns, name⟩ w).2 = view w ∧
    ∀ pod, (c.getPod ⟨ns, name⟩ w).1 = .ok pod →
      (view w).life name = .present pod ∧ pod.namespace_ = ns ∧ pod.name = name
  deletePod : ∀ name w, (view (c.deletePod ⟨ns, name⟩ w).2).lock = (view w).lock ∧
    (∀ n, n ≠ name → (view (c.deletePod ⟨ns, name⟩ w).2).life n = (view w).life n) ∧
    ((view w).life name).Follows ((view (c.deletePod ⟨ns, name⟩ w).2).life name)
  getConfigMap : ∀ w, view (c.getConfigMap ⟨ns, lockName⟩ w).2 = view w ∧
    ∀ owners, (c.getConfigMap ⟨ns, lockName⟩ w).1 = .ok owners → (view w).lock = some owners
  createConfigMap : ∀ owners w,
    (view (c.createConfigMap ⟨ns, lockName⟩ owners w).2).life = (view w).life ∧
    ((view (c.createConfigMap ⟨ns, lockName⟩ owners w).2).lock = (view w).lock ∨
      (view w).lock = none ∧ (view (c.createConfigMap ⟨ns, lockName⟩ owners w).2).lock = some owners) ∧
    ((c.createConfigMap ⟨ns, lockName⟩ owners w).1 = .ok () →
      (view (c.createConfigMap ⟨ns, lockName⟩ owners w).2).lock = some owners)

end LockClient

section steps
open Prog
variable {c : LockClient ω} {ns lockName : String} {view : ω → Cluster}

/-- The relations of the cluster, in the world. -/
abbrev Rely (view : ω → Cluster) (n : String) : ω → ω → Prop := fun w w' => (view w).Kept n (view w')

abbrev Guarantee (view : ω → Cluster) (n : String) : ω → ω → Prop := fun w w' => (view w).Own n (view w')

instance (n : String) : IsPreorder ω (Rely view n) where
  refl w := refl (view w)
  trans _ _ _ h h' := trans_of (Cluster.Kept n) h h'

/-- The process stands in its pod, and the lock is fair to it. -/
def Stands (view : ω → Cluster) (n : String) (owner : OwnerReference) (w : ω) : Prop :=
  (view w).Hosted n owner ∧ (view w).Fair owner

/-- The lock is the process's own. -/
def Elected (view : ω → Cluster) (n : String) (owner : OwnerReference) (w : ω) : Prop :=
  (view w).Hosted n owner ∧ (view w).lock = some [owner]

variable {n : String} {owner : OwnerReference}

theorem stands_stable : Stable (Rely view n) (Stands view n owner) := fun _ _ h hs =>
  ⟨h.hosted owner hs.1, h.fair owner hs.1 hs.2⟩

theorem elected_stable : Stable (Rely view n) (Elected view n owner) := fun _ _ h hs =>
  ⟨h.hosted owner hs.1, h.lock owner hs.1 hs.2⟩

/-- Where a process has found its own lock it leads. -/
def Resumed (view : ω → Cluster) (n : String) (owner : OwnerReference) (existing : List OwnerReference)
    (w : ω) : Prop :=
  existing.any (fun existingOwner => existingOwner.name = owner.name) = true → Elected view n owner w

theorem resumed_stable (existing : List OwnerReference) :
    Stable (Rely view n) (Resumed view n owner existing) := Stable.imp fun _ => elected_stable

theorem spent_stable (m : String) : Stable (Rely view n) fun w => (view w).Spent m := fun _ _ h hs =>
  h.spent m hs

/-- What has been seen of the pod `m`: once failed, it stays so. -/
def Seen (view : ω → Cluster) (ns m : String) (pod : Pod) (w : ω) : Prop :=
  pod.namespace_ = ns ∧ pod.name = m ∧ (pod.phase = .failed → (view w).Spent m)

theorem seen_stable {m : String} (pod : Pod) : Stable (Rely view n) (Seen view ns m pod) :=
  (Stable.const _ _).and ((Stable.const _ _).and (Stable.imp fun _ => spent_stable m))

/-- A request that leaves the cluster as it is. -/
theorem ask_amid {α : Type} {f : ω → Except GoError α × ω} {K : α → ω → Prop}
    (hK : ∀ a, Stable (Rely view n) (K a)) (hview : ∀ w, view (f w).2 = view w)
    (hf : ∀ w a, Stands view n owner w → (f w).1 = .ok a → K a (f w).2) :
    Amid (Rely view n) (Guarantee view n) (Stands view n owner)
      (fun o w => Stands view n owner w ∧ Returning K o w) (.atomic f) :=
  Amid.atomic stands_stable (fun o => stands_stable.and (Stable.returning hK o)) fun w hw => by
    refine ⟨?_, ?_, fun a ha => hf w a hw ha⟩
    · show (view w).Own n (view (f w).2)
      rw [hview]
      exact .refl n _
    · show (view (f w).2).Hosted n owner ∧ (view (f w).2).Fair owner
      rw [hview]
      exact hw

variable (hc : c.Serves ns lockName view)
include hc

theorem deletePod_amid {m : String} : Amid (Rely view n) (Guarantee view n)
    (fun w => Stands view n owner w ∧ (view w).Spent m) (fun _ => Stands view n owner)
    (.atomic (c.deletePod ⟨ns, m⟩)) :=
  Amid.atomic (stands_stable.and (spent_stable m)) (fun _ => stands_stable) fun w ⟨hw, hspent⟩ => by
    obtain ⟨hlock, hothers, hfollows⟩ := hc.deletePod m w
    have hown : (view w).Own n (view (c.deletePod ⟨ns, m⟩ w).2) := by
      refine ⟨fun k => ?_, .inl hlock⟩
      rcases eq_or_ne k m with rfl | hne
      · exact .inr ⟨hspent, hfollows⟩
      · exact .inl (hothers k hne)
    refine ⟨hown, hown.hosted hw.1, fun owners howners => hw.2 owners (hlock.symm.trans howners)⟩

omit hc in
theorem evicted_failed {pod : Pod} (h : isPodEvicted pod) : pod.phase = .failed :=
  of_decide_eq_true (Bool.and_eq_true_iff.mp h).1

omit hc in
theorem stay_amid {I : ω → Prop} (hI : Stable (Rely view n) I) (h : ∀ w, I w → Stands view n owner w) :
    Amid (Rely view n) (Guarantee view n) I (fun _ => Stands view n owner)
      (Pure.pure () : Prog ω GoError Unit) := Amid.pure hI h

theorem visitLeader_amid (existingOwners : List OwnerReference) : Amid (Rely view n) (Guarantee view n)
    (Stands view n owner) (fun _ => Stands view n owner) (c.visitLeader ns existingOwners) := by
  unfold LockClient.visitLeader
  split
  · rename_i leader
    split
    · exact stay_amid stands_stable fun _ h => h
    · refine Amid.attemptBind (ask_amid (K := Seen view ns leader.name) seen_stable
        (fun w => (hc.getPod _ w).1) fun w pod _ hpod => ?_) fun o => ?_
      · obtain ⟨hview, hanswer⟩ := hc.getPod leader.name w
        obtain ⟨hlife, hns, hname⟩ := hanswer pod hpod
        refine ⟨hns, hname, fun hfailed => ?_⟩
        show (view (c.getPod ⟨ns, leader.name⟩ w).2).Spent leader.name
        rw [hview]
        exact .inr ⟨pod, hlife, hfailed⟩
      · have hstable : Stable (Rely view n) fun w => Stands view n owner w ∧
            Returning (Seen view ns leader.name) o w := stands_stable.and (Stable.returning seen_stable o)
        cases o with
        | error e =>
            dsimp only
            split
            · exact stay_amid hstable fun _ h => h.1
            · exact Amid.throw hstable fun _ h => h.1
        | ok leaderPod =>
            dsimp only
            split
            · rename_i hevicted
              refine Amid.attemptBind (T := fun _ => Stands view n owner) ?_ fun _ =>
                stay_amid stands_stable fun _ h => h
              intro w hw
              obtain ⟨hns, hname, hspent⟩ := hw.2 leaderPod rfl
              rw [hns, hname]
              exact deletePod_amid hc w ⟨hw.1, hspent (evicted_failed hevicted.1)⟩
            · exact stay_amid hstable fun _ h => h.1
  · exact stay_amid stands_stable fun _ h => h

/-- Who creates the lock leads. -/
theorem createConfigMap_amid : Amid (Rely view n) (Guarantee view n) (Stands view n owner)
    (fun o w => Stands view n owner w ∧ Returning (fun _ => Elected view n owner) o w)
    (.atomic (c.createConfigMap ⟨ns, lockName⟩ [owner])) :=
  Amid.atomic stands_stable (fun o => stands_stable.and (Stable.returning (fun _ => elected_stable) o))
    fun w hw => by
      obtain ⟨hlife, hlock, hcreated⟩ := hc.createConfigMap [owner] w
      have hown : (view w).Own n (view (c.createConfigMap ⟨ns, lockName⟩ [owner] w).2) := by
        refine ⟨fun m => .inl (congrFun hlife m), ?_⟩
        rcases hlock with hsame | ⟨hnone, howned⟩
        · exact .inl hsame
        · exact .inr ⟨hnone, owner, hw.1, howned⟩
      refine ⟨hown, ⟨hown.hosted hw.1, fun owners howners o ho hname => ?_⟩,
        fun a ha => ⟨hown.hosted hw.1, hcreated ha⟩⟩
      rcases hlock with hsame | ⟨-, howned⟩
      · exact hw.2 owners (hsame.symm.trans howners) o ho hname
      · rw [howned] at howners
        exact (Option.some.inj howners).symm

theorem tryLock_amid {existingOwners : List OwnerReference} {next : Prog ω GoError Unit}
    (hnext : Amid (Rely view n) (Guarantee view n) (Stands view n owner)
      (Returning fun _ => Elected view n owner) next) :
    Amid (Rely view n) (Guarantee view n) (Stands view n owner) (Returning fun _ => Elected view n owner)
      (c.tryLock ⟨ns, lockName⟩ owner existingOwners next) := by
  refine Amid.attemptBind (createConfigMap_amid hc) fun o => ?_
  cases o with
  | ok _ =>
      exact Amid.return_ (stands_stable.and (Stable.returning (fun _ => elected_stable) _))
        fun _ hw => hw.2 () rfl
  | error e =>
      dsimp only
      split
      · exact Amid.weaken (Amid.bind (visitLeader_amid hc existingOwners) (fun _ => hnext)
          fun _ _ _ _ ha => by cases ha) fun _ hw => hw.1
      · exact Amid.fail _

theorem tryLocks_amid (existingOwners : List OwnerReference) : ∀ waits, Amid (Rely view n)
    (Guarantee view n) (Stands view n owner) (Returning fun _ => Elected view n owner)
    (c.tryLocks ⟨ns, lockName⟩ owner existingOwners waits)
  | 0 => tryLock_amid hc (Amid.fail _)
  | waits + 1 => tryLock_amid hc (tryLocks_amid existingOwners waits)

/-- A lock with the name of the own pod is a lock of the own pod. -/
theorem getConfigMap_amid : Amid (Rely view n) (Guarantee view n) (Stands view n owner)
    (fun o w => Stands view n owner w ∧ Returning (Resumed view n owner) o w)
    (.atomic (c.getConfigMap ⟨ns, lockName⟩)) :=
  ask_amid resumed_stable (fun w => (hc.getConfigMap w).1) fun w existing hw hread hmine => by
    obtain ⟨hview, hanswer⟩ := hc.getConfigMap w
    obtain ⟨o, ho, hname⟩ := List.any_eq_true.mp hmine
    have hlock := hanswer existing hread
    rw [hw.2 existing hlock o ho (of_decide_eq_true hname)] at hlock
    show (view (c.getConfigMap ⟨ns, lockName⟩ w).2).Hosted n owner ∧
      (view (c.getConfigMap ⟨ns, lockName⟩ w).2).lock = some [owner]
    rw [hview]
    exact ⟨hw.1, hlock⟩

/-- The reference that a process gets is to its own pod. -/
theorem myOwnerRef_amid {env : OperatorEnv} (henv : env.podName = n) :
    Amid (Rely view n) (Guarantee view n) (Stands view n owner)
      (Returning fun owner' w => Stands view n owner w ∧ owner' = owner) (c.myOwnerRef env ns) := by
  refine Amid.andThen (K := fun pod w => Stands view n owner w ∧ ownerRef pod = owner) ?_ fun pod =>
    Amid.return_ (stands_stable.and (Stable.const _ _)) fun _ h => h
  unfold OperatorEnv.getPod
  split
  · exact Amid.fail _
  · split
    · exact Amid.fail _
    · rw [henv]
      refine Amid.mono (ask_amid (K := fun pod _ => ownerRef pod = owner) (fun _ => Stable.const _ _)
        (fun w => (hc.getPod n w).1) fun w pod hw hpod => ?_) fun o w hw pod hpod => ⟨hw.1, hw.2 pod hpod⟩
      exact hw.1.eq ((hc.getPod n w).2 pod hpod).1

/-- **What `become` does amid the others**: it changes only pods that have failed and creates the lock
only for its own pod, and where it returns the lock is its pod's. -/
theorem become_amid {env : OperatorEnv} (henv : env.InCluster ns n) (waits : ℕ) :
    Amid (Rely view n) (Guarantee view n) (Stands view n owner) (Returning fun _ => Elected view n owner)
      (c.become env lockName waits) := by
  have hns : (∃ e, env.getOperatorNamespace = .error (.other e)) ∨ env.getOperatorNamespace = .ok ns := by
    unfold OperatorEnv.getOperatorNamespace
    rw [if_neg (by simpa [OperatorEnv.isRunModeLocal] using henv.mode)]
    cases hfile : env.namespaceFile with
    | ok text => exact .inr (congrArg Except.ok (henv.trimmed text hfile))
    | error e =>
        cases e with
        | notExist => exact absurd hfile henv.namespaceFile
        | other e => exact .inl ⟨e, rfl⟩
  unfold LockClient.become
  rcases hns with ⟨e, hns⟩ | hns
  · rw [hns]
    exact Amid.fail _
  · rw [hns]
    refine Amid.bind (ask_amid (K := fun _ _ => True) (fun _ => Stable.const _ _) hc.newClient
      fun _ _ _ _ => trivial) (fun _ => ?_) fun _ _ _ _ ha => by cases ha
    have hown : Amid (Rely view n) (Guarantee view n) (Stands view n owner) (Returning fun owner' w =>
        Stands view n owner w ∧ owner' = owner) (c.myOwnerRef env ns) := myOwnerRef_amid hc henv.podName
    refine Amid.weaken (Amid.andThen hown fun owner' => ?_) fun _ h => h.1
    refine Amid.weaken (Amid.given fun howner => ?_) fun _ h => ⟨h.2, h.1⟩
    subst howner
    refine Amid.attemptBind (getConfigMap_amid hc) fun o => ?_
    cases o with
    | error e =>
        dsimp only
        split
        · exact Amid.weaken (tryLocks_amid hc [] waits) fun _ hw => hw.1
        · exact Amid.fail _
    | ok existing =>
        dsimp only
        split
        · rename_i hmine
          exact Amid.return_ (stands_stable.and (Stable.returning resumed_stable _))
            fun w hw => hw.2 existing rfl hmine
        · exact Amid.weaken (tryLocks_amid hc existing waits) fun _ hw => hw.1

end steps

/-! ### Any order of steps -/

/-- A process is started in a pod that has not failed. -/
def LockClient.rules (c : LockClient ω) (ns lockName : String) (view : ω → Cluster) :
    Fleet.Rules String ω GoError Unit where
  Starts w n p := (∃ owner, (view w).Hosted n owner) ∧
    ∃ env waits, env.InCluster ns n ∧ p = c.become env lockName waits
  Env on w w' := (view w).Moves on (view w')

section runs
variable {c : LockClient ω} {ns lockName : String} {view : ω → Cluster}
  (hc : c.Serves ns lockName view)
include hc

theorem rules_contract : Fleet.Contract (c.rules ns lockName view) (Rely view) (Guarantee view)
    (fun n o w => ∀ a, o = .ok a → ∃ owner, Elected view n owner w)
    (fun n w => ∃ owner, (view w).Hosted n owner) fun w => (view w).Owned where
  rely _ _ hne _ _ h := h.kept hne
  own _ _ _ h := fun ⟨owner, hn⟩ => ⟨owner, h.hosted hn⟩
  others _ _ _ h := fun ⟨owner, hn⟩ => ⟨owner, h.hosted owner hn⟩
  inv _ _ _ h _ := h.owned
  env _ _ _ h hs := ⟨h.owned hs, fun _ hn => h.kept hn⟩
  starts w n p := by
    rintro ⟨⟨owner, hn⟩, env, waits, henv, rfl⟩ hs
    refine ⟨⟨owner, hn⟩, ?_⟩
    exact Prog.Holds.mono (fun o w' h a ha => ⟨owner, h a ha⟩)
      (become_amid hc henv waits w ⟨hn, hs.fair hn⟩)

variable {S₀ S T : Fleet String ω GoError Unit}

/-- **At most one leader**, whatever comes, fails and goes in whatever order: it runs in a pod that has
not failed, and the lock is that pod's.  And no process that runs ever loses its pod through `become`. -/
theorem leader_unique (h : Fleet.Reaches (c.rules ns lockName view) S₀ S)
    (hidle : ∀ n, S₀.running n = none) (howned : (view S₀.state).Owned) :
    (∀ m n, S.Returned m () → S.Returned n () → m = n) ∧
    (∀ n, S.Returned n () → ∃ pod, (view S.state).life n = .present pod ∧ pod.phase ≠ .failed ∧
      (view S.state).lock = some [ownerRef pod]) ∧
    ∀ n p, S.running n = some p → (∃ pod, (view S.state).life n = .present pod ∧ pod.phase ≠ .failed) ∧
      ∀ m pod, (view S.state).life m = .present pod → pod.phase ≠ .failed →
        (view (p.step S.state).2).life m = .present pod := by
  have hS := (rules_contract hc).run h (Fleet.Sound.init howned hidle)
  refine ⟨fun m n hm hn => ?_, fun n hn => ?_, fun n p hp => ⟨?_, fun m pod hpod hphase => ?_⟩⟩
  · obtain ⟨owner, hhosted, hlock⟩ := hS.returned hm () rfl
    obtain ⟨owner', hhosted', hlock'⟩ := hS.returned hn () rfl
    rw [hlock] at hlock'
    obtain rfl := List.singleton_inj.mp (Option.some.inj hlock')
    exact hhosted.name_eq.symm.trans hhosted'.name_eq
  · obtain ⟨owner, ⟨pod, hpod, -, hphase, rfl⟩, hlock⟩ := hS.returned hn () rfl
    exact ⟨pod, hpod, hphase, hlock⟩
  · obtain ⟨⟨owner, pod, hpod, -, hphase, -⟩, -⟩ := hS.runs n p hp
    exact ⟨pod, hpod, hphase⟩
  · obtain ⟨-, hown | hsame⟩ := (hS.runs n p hp).2.next
    · rcases hown.life m with hlife | ⟨hspent, -⟩
      · exact hlife.trans hpod
      · exact absurd hspent (Cluster.not_spent hpod hphase)
    · rw [hsame]
      exact hpod

/-- **Leader for life**: as long as the pod of a leader is there, also when its process has been stopped
or it has failed, the lock is its own, and no process of another pod becomes a leader. -/
theorem leader_for_life (h : Fleet.Reaches (c.rules ns lockName view) S₀ S)
    (hidle : ∀ n, S₀.running n = none) (howned : (view S₀.state).Owned)
    (hrun : Fleet.Reaches (c.rules ns lockName view) S T) {n : String} (hn : S.Returned n ()) {pod : Pod}
    (hpod : (view T.state).life n = .present pod) :
    (view T.state).lock = some [ownerRef pod] ∧ ∀ m, T.Returned m () → m = n := by
  have hS := (rules_contract hc).run h (Fleet.Sound.init howned hidle)
  obtain ⟨owner, hhosted, hlock⟩ := hS.returned hn () rfl
  have hheld := (rules_contract hc).along (K := fun w => (view w).Held n owner)
    (fun _ _ _ hown hs => hs.own hown) (fun _ _ _ hmove _ hs => hs.moves hmove) hrun hS
    (hhosted.held hlock)
  obtain ⟨rfl, hlockT⟩ := hheld.2 pod hpod
  refine ⟨hlockT, fun m hm => ?_⟩
  obtain ⟨owner', hhosted', hlock'⟩ := ((rules_contract hc).run hrun hS).returned hm () rfl
  rw [hlockT] at hlock'
  obtain rfl := List.singleton_inj.mp (Option.some.inj hlock')
  exact hhosted'.name_eq.symm.trans hhosted.name_eq

end runs

/-! ### An election -/

/-- An API server that answers at once; it removes a failed pod, and marks another one as deleted. -/
def memoryLock : LockClient Cluster where
  newClient s := (.ok (), s)
  getPod key s := match s.life key.name with
    | .present pod =>
        if pod.namespace_ = key.namespace_ ∧ pod.name = key.name then (.ok pod, s)
        else (.error { kind := .notFound }, s)
    | _ => (.error { kind := .notFound }, s)
  deletePod key s := match s.life key.name with
    | .present pod =>
        let after : Life :=
          if pod.phase = .failed then .gone else .present { pod with deletionTimestamp := some 0 }
        (.ok (), { s with life := Function.update s.life key.name after })
    | _ => (.error { kind := .notFound }, s)
  getConfigMap _ s := match s.lock with
    | some owners => (.ok owners, s)
    | none => (.error { kind := .notFound }, s)
  createConfigMap _ owners s := match s.lock with
    | none => (.ok (), { s with lock := some owners })
    | some _ => (.error { message := "already exists" }, s)
  isAlreadyExists e := e.message = "already exists"

theorem memoryLock_serves (ns lockName : String) : memoryLock.Serves ns lockName id where
  newClient _ := rfl
  getPod name s := by
    show (memoryLock.getPod ⟨ns, name⟩ s).2 = s ∧ _
    simp only [memoryLock]
    cases hlife : s.life name with
    | unborn => exact ⟨rfl, nofun⟩
    | gone => exact ⟨rfl, nofun⟩
    | present pod =>
        dsimp only
        split
        · rename_i hkey
          refine ⟨rfl, fun pod' hpod' => ?_⟩
          obtain rfl := Except.ok.inj hpod'
          exact ⟨hlife, hkey⟩
        · exact ⟨rfl, nofun⟩
  deletePod name s := by
    show (memoryLock.deletePod ⟨ns, name⟩ s).2.lock = s.lock ∧
      (∀ n, n ≠ name → (memoryLock.deletePod ⟨ns, name⟩ s).2.life n = s.life n) ∧
      (s.life name).Follows ((memoryLock.deletePod ⟨ns, name⟩ s).2.life name)
    simp only [memoryLock]
    cases hlife : s.life name with
    | unborn => exact ⟨rfl, fun _ _ => rfl, .unborn _⟩
    | gone =>
        refine ⟨rfl, fun _ _ => rfl, ?_⟩
        show Life.gone.Follows (s.life name)
        rw [hlife]
        exact .gone _
    | present pod =>
        refine ⟨rfl, fun n hne => Function.update_of_ne hne .., ?_⟩
        dsimp only
        rw [Function.update_self]
        split
        · exact .gone _
        · exact .present rfl id
  getConfigMap s := by
    show (memoryLock.getConfigMap ⟨ns, lockName⟩ s).2 = s ∧ _
    simp only [memoryLock]
    cases hlock : s.lock with
    | none => exact ⟨rfl, nofun⟩
    | some owners =>
        refine ⟨rfl, fun owners' howners => ?_⟩
        obtain rfl := Except.ok.inj howners
        exact hlock
  createConfigMap owners s := by
    show (memoryLock.createConfigMap ⟨ns, lockName⟩ owners s).2.life = s.life ∧
      ((memoryLock.createConfigMap ⟨ns, lockName⟩ owners s).2.lock = s.lock ∨ _) ∧ _
    simp only [memoryLock]
    cases hlock : s.lock with
    | none => exact ⟨rfl, .inr ⟨hlock, rfl⟩, fun _ => rfl⟩
    | some _ => exact ⟨rfl, .inl hlock, nofun⟩

def podOf (name uid : String) : Pod := { namespace_ := "powerful", name, uid }

def operatorIn (name : String) : OperatorEnv := { namespaceFile := .ok "powerful\n", podName := name }

theorem operatorIn_inCluster (name : String) : (operatorIn name).InCluster "powerful" name where
  mode := by
    show "" ≠ "local"
    decide
  namespaceFile := nofun
  trimmed text h := by
    obtain rfl := Except.ok.inj h
    decide
  podName := rfl

/-- Two pods, without a lock. -/
def twoPods : Cluster where
  life n :=
    if n = "a" then .present (podOf "a" "1")
    else if n = "b" then .present (podOf "b" "2")
    else .unborn
  lock := none

def idleFleet : Fleet String Cluster GoError Unit := ⟨fun _ => none, twoPods⟩

/-- Both pods start a process, and that of `a` is faster. -/
def electedFleet : Fleet String Cluster GoError Unit :=
  ["a", "b", "a", "a", "b", "a", "b", "b"].foldl Fleet.act
    ⟨Function.update (Function.update (fun _ => none) "a"
        (some (memoryLock.become (operatorIn "a") "powerful-lock" 1))) "b"
      (some (memoryLock.become (operatorIn "b") "powerful-lock" 1)), twoPods⟩

theorem electedFleet_reached :
    Fleet.Reaches (memoryLock.rules "powerful" "powerful-lock" id) idleFleet electedFleet := by
  have ha : (id twoPods : Cluster).Hosted "a" (ownerRef (podOf "a" "1")) := ⟨_, rfl, rfl, nofun, rfl⟩
  have hb : (id twoPods : Cluster).Hosted "b" (ownerRef (podOf "b" "2")) := ⟨_, rfl, rfl, nofun, rfl⟩
  refine Relation.ReflTransGen.trans (.tail (.single (.start rfl ?_)) (.start rfl ?_))
    (Fleet.reaches_act _ _ _)
  · exact ⟨⟨_, ha⟩, _, 1, operatorIn_inCluster "a", rfl⟩
  · exact ⟨⟨_, hb⟩, _, 1, operatorIn_inCluster "b", rfl⟩

theorem electedFleet_leader : electedFleet.Returned "a" () := rfl

theorem leader_unique_sample : electedFleet.state.lock = some [ownerRef (podOf "a" "1")] ∧
    ∀ n, electedFleet.Returned n () → n = "a" :=
  ⟨rfl, fun n hn =>
    (leader_unique (memoryLock_serves "powerful" "powerful-lock") electedFleet_reached (fun _ => rfl) nofun).1
      n "a" hn electedFleet_leader⟩

def evictedPod : Pod := { podOf "a" "1" with phase := .failed, reason := "Evicted" }

/-- The pod of `a` is evicted, and `b` has seen it. -/
def evictedFleet : Fleet String Cluster GoError Unit :=
  ["b"].foldl Fleet.act ⟨Function.update electedFleet.running "a" none,
    { electedFleet.state with
      life := Function.update electedFleet.state.life "a" (.present evictedPod) }⟩

theorem evictedFleet_reached :
    Fleet.Reaches (memoryLock.rules "powerful" "powerful-lock" id) electedFleet evictedFleet := by
  refine Relation.ReflTransGen.trans (.tail (.single (.stop "a")) (.env ?_)) (Fleet.reaches_act _ _ _)
  refine ⟨fun n => ?_, fun n hn owner hhosted => ?_, .inl rfl⟩
  · rcases eq_or_ne n "a" with rfl | hne
    · exact .present rfl nofun
    · show (electedFleet.state.life n).Follows (Function.update electedFleet.state.life "a" _ n)
      rw [Function.update_of_ne hne]
      exact .refl _
  · have hne : n ≠ "a" := by
      rintro rfl
      cases hn
    obtain ⟨pod, hpod, hrest⟩ := hhosted
    exact ⟨pod, (Function.update_of_ne hne ..).trans hpod, hrest⟩

theorem leader_for_life_sample : evictedFleet.state.lock = some [ownerRef evictedPod] ∧
    ∀ m, evictedFleet.Returned m () → m = "a" :=
  leader_for_life (memoryLock_serves "powerful" "powerful-lock") electedFleet_reached (fun _ => rfl) nofun
    evictedFleet_reached electedFleet_leader rfl

/-- `b` removes the pod, and behind its wait finds that the lock has been collected. -/
example :
    let T := evictedFleet.act "b"
    (["b", "b"].foldl Fleet.act { T with state := { T.state with lock := none } }).Returned "b" () := rfl

end Powerful.Helm
