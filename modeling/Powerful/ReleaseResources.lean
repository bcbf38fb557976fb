import Mathlib
import Powerful.MergePatch
import Powerful.Reconcile

/-! # The resources of a release

`reconcileRelease` goes through the resources of a release's manifest.  One that is missing is
created.  For one that is there a JSON patch is made from what is there to what is expected
(`generatePatch`), without the operations that remove a field or add a null, and sent unless nothing
is left of it.

The cluster is a world that a client asks, with the resource that is held under each reference; what
is created or patched passes through `accept` before it is held.  The comparison of two documents is a
library's.  A pass that succeeds leaves every expected resource laid over what was there
(`reconcileRelease_settles`), where they cover what is expected (`reconcileRelease_again`), and a pass
over resources that do sends nothing (`reconcileRelease_quiet`). -/

namespace Powerful.Helm

open Resumption

/-! ### Resources -/

/-- What a resource is found by. -/
structure Ref where
  mapping : String
  namespace_ : String
  name : String
  deriving DecidableEq

/-- `resource.Info`. -/
structure Info where
  ref : Ref
  namespaced : Bool
  object : Json

/-- `jsonpatch.CreatePatch`: maps are compared by their keys, in any order, and lists of the same
length by their elements. -/
structure JsonPatch where
  createPatch : Json → Json → Except GoError (List Json.Op)
  uneven : List Json → List Json → List Json.Op
  createPatch_perm : ∀ a b ops, createPatch a b = .ok ops → ops.Perm (Json.compare uneven a b)

/-- `kube.Client` and the helpers that it gives.  `live` is the resource that is held, and `accept`
what the server makes of one that it accepts. -/
structure KubeClient (ω : Type) where
  live : ω → Ref → Option Json
  accept : Json → Json
  build : String → ω → Except GoError (List Info) × ω
  get : Ref → ω → Except GoError Json × ω
  create : Ref → Json → ω → Except GoError Unit × ω
  patch : Ref → List Json.Op → ω → Except GoError Unit × ω
  live_build : ∀ m w, live (build m w).2 = live w
  live_get : ∀ k w, live (get k w).2 = live w
  get_ok : ∀ k w o w', get k w = (.ok o, w') → live w k = some o
  get_notFound : ∀ k w e w', get k w = (.error e, w') → e.kind = .notFound → live w k = none
  create_ok : ∀ k o w w', create k o w = (.ok (), w') → live w' k = some (accept o)
  create_other : ∀ k o w l, l ≠ k → live (create k o w).2 l = live w l
  patch_ok : ∀ k ops w w', patch k ops w = (.ok (), w') →
    ∃ o p, live w k = some o ∧ Json.applyAll false ops o = some p ∧ live w' k = some (accept p)
  patch_other : ∀ k ops w l, l ≠ k → live (patch k ops w).2 l = live w l

/-- A client that makes the custom resource the owner of the resources it builds. -/
structure OwnerRefInjectingClient (ω : Type) extends KubeClient ω where
  setOwnerReferences : Json → Json

variable {ω : Type}

def OwnerRefInjectingClient.inject (c : OwnerRefInjectingClient ω) (r : Info) : Info :=
  if r.namespaced then { r with object := c.setOwnerReferences r.object } else r

/-- `ownerRefInjectingClient.Build`. -/
def OwnerRefInjectingClient.buildOwned (c : OwnerRefInjectingClient ω) (manifest : String) (w : ω) :
    Except GoError (List Info) × ω :=
  ((c.build manifest w).1.map (List.map c.inject), (c.build manifest w).2)

/-! ### A pass -/

inductive Sent where
  | create (ref : Ref) (o : Json)
  | patch (ref : Ref) (ops : List Json.Op)

/-- `sent` is a ghost: the requests so far that change something. -/
structure VisitState (ω : Type) where
  sent : List Sent := []
  world : ω

abbrev Visit (ω α : Type) := Prog (VisitState ω) GoError α

def query {α : Type} (f : ω → Except GoError α × ω) : Visit ω α :=
  .atomic fun s => ((f s.world).1, { s with world := (f s.world).2 })

def request (x : Sent) (f : ω → Except GoError Unit × ω) : Visit ω Unit :=
  .atomic fun s => ((f s.world).1, { sent := s.sent ++ [x], world := (f s.world).2 })

/-- `fmt.Errorf` with `%w`. -/
def GoError.wrap (text : String) (e : GoError) : GoError := { e with message := text ++ e.message }

/-- Nothing is returned if no operation is left. -/
def generatePatch (lib : JsonPatch) (existing expected : Json) :
    Except GoError (Option (List Json.Op)) := do
  let ops ← lib.createPatch existing expected
  let patchOps := Json.additive ops
  .ok (if patchOps = [] then none else some patchOps)

section pass
variable (lib : JsonPatch) (c : OwnerRefInjectingClient ω)

def visit (expected : Info) : Visit ω Unit := do
  let existing ← (query (c.get expected.ref)).attempt
  match existing with
  | .error e =>
      if e.kind = .notFound then do
        let created ← (request (.create expected.ref expected.object)
          (c.create expected.ref expected.object)).attempt
        match created with
        | .error e => .throw { message := "create error: " ++ e.message }
        | .ok () => pure ()
      else .throw e
  | .ok existing =>
      match generatePatch lib existing expected.object with
      | .error e => .throw (e.wrap "failed to marshal JSON patch: ")
      | .ok none => pure ()
      | .ok (some patch) => do
          let patched ← (request (.patch expected.ref patch) (c.patch expected.ref patch)).attempt
          match patched with
          | .error e => .throw (e.wrap "patch error: ")
          | .ok () => pure ()

def visitAll : List Info → Visit ω Unit
  | [] => pure ()
  | expected :: infos => do
      visit lib c expected
      visitAll infos

def reconcileRelease (expectedManifest : String) : Visit ω Unit := do
  let expectedInfos ← query (c.buildOwned expectedManifest)
  visitAll lib c expectedInfos

end pass

/-! ### What a pass does -/

section results
open Prog
variable (lib : JsonPatch) (c : OwnerRefInjectingClient ω)

theorem run_query {α : Type} (f : ω → Except GoError α × ω) (s : VisitState ω) :
    (query f).run s = ((f s.world).1, { s with world := (f s.world).2 }) := run_atomic _ s

theorem run_request (x : Sent) (f : ω → Except GoError Unit × ω) (s : VisitState ω) :
    (request x f).run s = ((f s.world).1, { sent := s.sent ++ [x], world := (f s.world).2 }) :=
  run_atomic _ s

theorem generatePatch_ok {existing expected : Json} {patch : Option (List Json.Op)}
    (h : generatePatch lib existing expected = .ok patch) :
    ∃ ops, ops.Perm (Json.compare lib.uneven existing expected) ∧
      patch = if Json.additive ops = [] then none else some (Json.additive ops) := by
  unfold generatePatch at h
  cases hops : lib.createPatch existing expected with
  | error e =>
      rw [hops] at h
      cases h
  | ok ops =>
      rw [hops] at h
      exact ⟨ops, lib.createPatch_perm _ _ _ hops, (Except.ok.inj h).symm⟩

/-- What a visit that succeeds does to its resource. -/
inductive Visited (expected : Info) (s s' : VisitState ω) : Prop
  | created (hlive : c.live s.world expected.ref = none)
      (hsent : s'.sent = s.sent ++ [.create expected.ref expected.object])
      (hlive' : c.live s'.world expected.ref = some (c.accept expected.object))
  | kept (o : Json) (ops : List Json.Op) (hlive : c.live s.world expected.ref = some o)
      (hops : ops.Perm (Json.compare lib.uneven o expected.object)) (hnil : Json.additive ops = [])
      (hsent : s'.sent = s.sent) (hlive' : c.live s'.world expected.ref = some o)
  | patched (o p : Json) (ops : List Json.Op) (hlive : c.live s.world expected.ref = some o)
      (hops : ops.Perm (Json.compare lib.uneven o expected.object)) (hne : Json.additive ops ≠ [])
      (hsent : s'.sent = s.sent ++ [.patch expected.ref (Json.additive ops)])
      (hpatch : Json.applyAll false (Json.additive ops) o = some p)
      (hlive' : c.live s'.world expected.ref = some (c.accept p))

theorem visit_ok {expected : Info} {s s' : VisitState ω}
    (h : (visit lib c expected).run s = (.ok (), s')) : Visited lib c expected s s' := by
  unfold visit at h
  rw [run_bind, run_attempt, run_query] at h
  have hget := c.live_get expected.ref s.world
  cases hanswer : c.get expected.ref s.world with
  | mk existing w =>
    rw [hanswer] at hget
    simp only [hanswer] at h
    cases existing with
    | error e =>
        simp only at h
        split at h
        · rename_i hkind
          rw [run_bind, run_attempt, run_request] at h
          cases hcreate : c.create expected.ref expected.object w with
          | mk created w' =>
            simp only [hcreate] at h
            cases created with
            | error e' => cases h
            | ok u =>
                obtain rfl := congrArg Prod.snd h
                exact .created (c.get_notFound _ _ _ _ hanswer hkind) rfl
                  (c.create_ok _ _ _ _ hcreate)
        · cases h
    | ok o =>
        have ho := c.get_ok _ _ _ _ hanswer
        simp only at h
        cases hpatch : generatePatch lib o expected.object with
        | error e =>
            rw [hpatch] at h
            cases h
        | ok patch =>
            obtain ⟨ops, hops, hpatch'⟩ := generatePatch_ok lib hpatch
            rw [hpatch] at h
            split at hpatch'
            · rename_i hnil
              rw [hpatch'] at h
              obtain rfl := congrArg Prod.snd h
              exact .kept o ops ho hops hnil rfl ((congrFun hget _).trans ho)
            · rename_i hne
              rw [hpatch'] at h
              simp only at h
              rw [run_bind, run_attempt, run_request] at h
              cases hsend : c.patch expected.ref (Json.additive ops) w with
              | mk patched w' =>
                simp only [hsend] at h
                cases patched with
                | error e' => cases h
                | ok u =>
                    obtain rfl := congrArg Prod.snd h
                    obtain ⟨o', p, ho', hp, hlive'⟩ := c.patch_ok _ _ _ _ hsend
                    have heq : o' = o := by
                      rw [congrFun hget expected.ref, ho] at ho'
                      exact (Option.some.inj ho').symm
                    rw [heq] at hp
                    exact .patched o p ops ho hops hne rfl hp hlive'

/-- What the requests about a resource keep. -/
theorem visit_keeps {J : ω → Prop} {expected : Info} (hget : ∀ w, J w → J (c.get expected.ref w).2)
    (hcreate : ∀ w, J w → J (c.create expected.ref expected.object w).2)
    (hpatch : ∀ ops w, J w → J (c.patch expected.ref ops w).2) :
    Leads (fun s => J s.world) (fun s => J s.world) (visit lib c expected) := by
  refine Leads.bind (Leads.attempt (Leads.atomic fun s hs => hget s.world hs)) fun existing => ?_
  cases existing with
  | error e =>
      simp only
      split
      · refine Leads.bind (Leads.attempt (Leads.atomic fun s hs => hcreate s.world hs)) fun created => ?_
        cases created with
        | error e' => exact Leads.throw (fun _ hs => hs) _
        | ok u => exact Leads.pure (fun _ hs => hs) ()
      · exact Leads.throw (fun _ hs => hs) e
  | ok o =>
      simp only
      split
      · exact Leads.throw (fun _ hs => hs) _
      · exact Leads.pure (fun _ hs => hs) ()
      · refine Leads.bind (Leads.attempt (Leads.atomic fun s hs => hpatch _ s.world hs)) fun patched => ?_
        cases patched with
        | error e' => exact Leads.throw (fun _ hs => hs) _
        | ok u => exact Leads.pure (fun _ hs => hs) ()

theorem visitAll_keeps {J : ω → Prop} : ∀ {infos : List Info},
    (∀ i ∈ infos, Leads (fun s => J s.world) (fun s => J s.world) (visit lib c i)) →
      Leads (fun s => J s.world) (fun s => J s.world) (visitAll lib c infos)
  | [], _ => Leads.pure (fun _ hs => hs) ()
  | _ :: _, h => by
      obtain ⟨hfirst, hrest⟩ := List.forall_mem_cons.mp h
      exact Leads.bind hfirst fun _ => visitAll_keeps hrest

/-- A visit leaves the other resources alone, whatever its outcome. -/
theorem visit_leads {expected : Info} {l : Ref} (hl : l ≠ expected.ref) (v : Option Json) :
    Leads (fun s => c.live s.world l = v) (fun s => c.live s.world l = v) (visit lib c expected) :=
  visit_keeps (J := fun w => c.live w l = v) lib c
    (fun w hw => (congrFun (c.live_get expected.ref w) l).trans hw)
    (fun w hw => (c.create_other _ _ w l hl).trans hw) fun ops w hw => (c.patch_other _ ops w l hl).trans hw

/-- What all requests keep. -/
theorem reconcileRelease_keeps {J : ω → Prop} (hbuild : ∀ text w, J w → J (c.build text w).2)
    (hget : ∀ k w, J w → J (c.get k w).2) (hcreate : ∀ k o w, J w → J (c.create k o w).2)
    (hpatch : ∀ k ops w, J w → J (c.patch k ops w).2) (manifest : String) :
    Leads (fun s => J s.world) (fun s => J s.world) (reconcileRelease lib c manifest) :=
  Leads.bind (Leads.atomic fun s hs => hbuild manifest s.world hs) fun _ =>
    visitAll_keeps lib c fun _ _ => visit_keeps lib c (hget _) (hcreate _ _) (hpatch _)

/-- What an expected resource has become, from what was there. -/
def LaidOver (expected : Info) (before after : Option Json) : Prop :=
  match before with
  | none => after = some (c.accept expected.object)
  | some o => ∃ p, Json.Alike p (Json.overlay o expected.object) ∧
      ((Json.Covers o expected.object ∧ p = o ∧ after = some o) ∨ after = some (c.accept p))

theorem Visited.laidOver {expected : Info} {s s' : VisitState ω} (h : Visited lib c expected s s')
    (hdistinct : expected.object.Distinct)
    (heven : ∀ o, c.live s.world expected.ref = some o → Json.Even o expected.object) :
    LaidOver c expected (c.live s.world expected.ref) (c.live s'.world expected.ref) := by
  cases h with
  | created hlive hsent hlive' =>
      rw [hlive]
      exact hlive'
  | kept o ops hlive hops hnil hsent hlive' =>
      have hperm : (Json.additive ops).Perm (Json.additive (Json.compare lib.uneven o expected.object)) :=
        hops.filter _
      have hnil' := hperm.symm
      rw [hnil, List.perm_nil] at hnil'
      have hedits := Json.overlay_edits lib.uneven expected.object hdistinct (heven o hlive)
      rw [hnil'] at hedits
      rw [hlive]
      refine ⟨o, fun p => (hedits.apart p nofun).symm, Or.inl ⟨?_, rfl, hlive'⟩⟩
      exact (Json.additive_compare_eq_nil lib.uneven _ hdistinct (heven o hlive)).mp hnil'
  | patched o p ops hlive hops hne hsent hpatch hlive' =>
      obtain ⟨p', hp', halike⟩ := Json.applyAll_additive lib.uneven hdistinct (heven o hlive) hops
      rw [hpatch] at hp'
      obtain rfl := Option.some.inj hp'
      rw [hlive]
      exact ⟨p, halike, Or.inr hlive'⟩

/-- The resources that were visited are settled; behind a failure the others are as they were. -/
theorem visitAll_settles : ∀ {infos : List Info} {s s' : VisitState ω} {outcome : Except GoError Unit},
    (visitAll lib c infos).run s = (outcome, s') → (infos.map Info.ref).Nodup →
    (∀ i ∈ infos, i.object.Distinct) →
    (∀ i ∈ infos, ∀ o, c.live s.world i.ref = some o → Json.Even o i.object) →
    ∃ visited rest, infos = visited ++ rest ∧ (outcome = .ok () → rest = []) ∧
      (∀ i ∈ visited, LaidOver c i (c.live s.world i.ref) (c.live s'.world i.ref)) ∧
      ∀ l, l ∉ (visited ++ rest.take 1).map Info.ref → c.live s'.world l = c.live s.world l
  | [], s, s', _, h, _, _, _ => by
      obtain rfl := congrArg Prod.snd h
      exact ⟨[], [], rfl, fun _ => rfl, nofun, fun _ _ => rfl⟩
  | expected :: infos, s, s', outcome, h, hnodup, hdistinct, heven => by
      rw [List.map_cons, List.nodup_cons] at hnodup
      have hfirst : ∀ l, l ≠ expected.ref →
          c.live ((visit lib c expected).run s).2.world l = c.live s.world l :=
        fun l hl => visit_leads lib c hl (c.live s.world l) s rfl
      cases hvisit : (visit lib c expected).run s with
      | mk first s₁ =>
        rw [hvisit] at hfirst
        cases first with
        | error e =>
            have hrun := (run_bind_error hvisit).symm.trans h
            obtain ⟨rfl, rfl⟩ := Prod.mk.inj hrun
            refine ⟨[], expected :: infos, rfl, nofun, nofun, fun l hl => hfirst l ?_⟩
            exact fun heq => hl (heq ▸ List.mem_cons_self)
        | ok u =>
            have hrest : (visitAll lib c infos).run s₁ = (outcome, s') := (run_bind_ok hvisit).symm.trans h
            have hne : ∀ i ∈ infos, i.ref ≠ expected.ref := fun i hi heq =>
              hnodup.1 (heq ▸ List.mem_map_of_mem hi)
            obtain ⟨visited, rest, rfl, hok, hsettled, hothers⟩ := visitAll_settles hrest hnodup.2
              (fun i hi => hdistinct i (List.mem_cons_of_mem _ hi)) fun i hi o ho => by
                rw [hfirst i.ref (hne i hi)] at ho
                exact heven i (List.mem_cons_of_mem _ hi) o ho
            have hlater : ∀ {l : Ref}, l ∈ (visited ++ rest.take 1).map Info.ref →
                l ∈ (visited ++ rest).map Info.ref := fun {l} hl =>
              List.map_subset _ (List.append_subset.mpr ⟨List.subset_append_left _ _,
                List.Subset.trans (List.take_subset 1 rest) (List.subset_append_right _ _)⟩) hl
            refine ⟨expected :: visited, rest, rfl, hok, List.forall_mem_cons.mpr ⟨?_, fun i hi => ?_⟩,
              fun l hl => ?_⟩
            · rw [hothers expected.ref fun hl => hnodup.1 (hlater hl)]
              exact (visit_ok lib c hvisit).laidOver lib c (hdistinct _ List.mem_cons_self)
                (heven _ List.mem_cons_self)
            · rw [← hfirst i.ref (hne i (List.mem_append_left _ hi))]
              exact hsettled i hi
            · rw [List.cons_append, List.map_cons, List.mem_cons, not_or] at hl
              rw [hothers l hl.2, hfirst l hl.1]

/-- A settled resource covers what is expected, if the server keeps what is expected. -/
theorem LaidOver.covers {expected : Info} {before after : Option Json}
    (h : LaidOver c expected before after) (hdistinct : expected.object.Distinct)
    (heven : ∀ o, before = some o → Json.Even o expected.object)
    (haccept : ∀ o, Json.Covers o expected.object → Json.Covers (c.accept o) expected.object) :
    ∃ o, after = some o ∧ Json.Covers o expected.object := by
  cases before with
  | none => exact ⟨_, h, haccept _ fun _ _ he => Or.inl he⟩
  | some o =>
      obtain ⟨p, halike, ⟨hcovers, -, hafter⟩ | hafter⟩ := h
      · exact ⟨o, hafter, hcovers⟩
      · exact ⟨_, hafter, haccept p ((Json.covers_overlay _ hdistinct (heven o rfl)).congr halike)⟩

/-- The reads of what is expected are answered while the server holds `held`, and what is there is
compared with what is expected. -/
structure Answered (infos : List Info) (held : Ref → Option Json) : Prop where
  get : ∀ i ∈ infos, ∀ w, c.live w = held → ∃ o, (c.get i.ref w).1 = .ok o
  createPatch : ∀ i ∈ infos, ∀ o, held i.ref = some o → ∃ ops, lib.createPatch o i.object = .ok ops

/-- A visit to a resource that covers what is expected sends nothing. -/
theorem visit_quiet {expected : Info} {s : VisitState ω} {o : Json}
    (hlive : c.live s.world expected.ref = some o) (hcovers : Json.Covers o expected.object)
    (hdistinct : expected.object.Distinct) :
    ((visit lib c expected).run s).2.sent = s.sent ∧
      c.live ((visit lib c expected).run s).2.world = c.live s.world ∧
      (Answered lib c [expected] (c.live s.world) → ((visit lib c expected).run s).1 = .ok ()) := by
  unfold visit
  rw [run_bind, run_attempt, run_query]
  have hget := c.live_get expected.ref s.world
  cases hanswer : c.get expected.ref s.world with
  | mk existing w =>
    rw [hanswer] at hget
    cases existing with
    | error e =>
        have hkind : e.kind ≠ .notFound := fun hkind => by
          rw [c.get_notFound _ _ _ _ hanswer hkind] at hlive
          cases hlive
        simp only [if_neg hkind, run_throw]
        refine ⟨trivial, hget, fun h => ?_⟩
        obtain ⟨o', ho'⟩ := h.get expected List.mem_cons_self s.world rfl
        rw [hanswer] at ho'
        cases ho'
    | ok o' =>
        have ho := c.get_ok _ _ _ _ hanswer
        rw [hlive] at ho
        obtain rfl := Option.some.inj ho
        cases hpatch : generatePatch lib o expected.object with
        | error e =>
            simp only [hpatch, run_throw]
            refine ⟨trivial, hget, fun h => ?_⟩
            obtain ⟨ops, hops⟩ := h.createPatch expected List.mem_cons_self o hlive
            unfold generatePatch at hpatch
            rw [hops] at hpatch
            cases hpatch
        | ok patch =>
            obtain ⟨ops, hops, rfl⟩ := generatePatch_ok lib hpatch
            have hnil : Json.additive ops = [] := by
              have hperm : (Json.additive ops).Perm _ := hops.filter _
              have hnone := (Json.additive_compare_eq_nil lib.uneven _ hdistinct hcovers.even).mpr hcovers
              exact List.perm_nil.mp (hnone ▸ hperm)
            rw [if_pos hnil] at hpatch
            simp only [hpatch]
            exact ⟨rfl, hget, fun _ => rfl⟩

theorem visitAll_quiet : ∀ {infos : List Info} {s : VisitState ω},
    (∀ i ∈ infos, i.object.Distinct ∧
      ∃ o, c.live s.world i.ref = some o ∧ Json.Covers o i.object) →
    ((visitAll lib c infos).run s).2.sent = s.sent ∧
      c.live ((visitAll lib c infos).run s).2.world = c.live s.world ∧
      (Answered lib c infos (c.live s.world) → ((visitAll lib c infos).run s).1 = .ok ())
  | [], _, _ => ⟨rfl, rfl, fun _ => rfl⟩
  | expected :: infos, s, h => by
      obtain ⟨⟨hdistinct, o, hlive, hcovers⟩, hrest⟩ := List.forall_mem_cons.mp h
      obtain ⟨hsent, hworld, hok⟩ := visit_quiet lib c hlive hcovers hdistinct
      rw [visitAll, run_bind]
      cases hvisit : (visit lib c expected).run s with
      | mk first s₁ =>
        rw [hvisit] at hsent hworld hok
        cases first with
        | error e =>
            refine ⟨hsent, hworld, fun hall => ?_⟩
            obtain ⟨hget, -⟩ := List.forall_mem_cons.mp hall.get
            obtain ⟨hcreate, -⟩ := List.forall_mem_cons.mp hall.createPatch
            cases hok ⟨List.forall_mem_singleton.mpr hget, List.forall_mem_singleton.mpr hcreate⟩
        | ok u =>
            have hrest' : ∀ i ∈ infos, i.object.Distinct ∧
                ∃ o, c.live s₁.world i.ref = some o ∧ Json.Covers o i.object := by
              rw [hworld]
              exact hrest
            obtain ⟨hsent', hworld', hok'⟩ := visitAll_quiet hrest'
            refine ⟨hsent'.trans hsent, hworld'.trans hworld, fun hall => hok' ?_⟩
            rw [hworld]
            exact ⟨fun i hi => hall.get i (List.mem_cons_of_mem _ hi),
              fun i hi => hall.createPatch i (List.mem_cons_of_mem _ hi)⟩

/-- The expected resources, as one pass builds them. -/
structure Expected (manifest : String) (s : VisitState ω) (infos : List Info) : Prop where
  built : (c.buildOwned manifest s.world).1 = .ok infos
  refs : (infos.map Info.ref).Nodup
  distinct : ∀ i ∈ infos, i.object.Distinct

theorem run_reconcileRelease {manifest : String} {s : VisitState ω} {infos : List Info}
    (h : (c.buildOwned manifest s.world).1 = .ok infos) :
    (reconcileRelease lib c manifest).run s =
      (visitAll lib c infos).run { s with world := (c.buildOwned manifest s.world).2 } := by
  rw [reconcileRelease]
  refine run_bind_ok ?_
  rw [run_query, h]

theorem live_buildOwned (manifest : String) (w : ω) :
    c.live (c.buildOwned manifest w).2 = c.live w := c.live_build manifest w

/-! ### A cluster -/

def patchSample : JsonPatch where
  createPatch a b := .ok (Json.compare (fun _ _ => []) a b)
  uneven _ _ := []
  createPatch_perm _ _ _ h := by rw [Except.ok.inj h]

def deployment (replicas : ℤ) (more : Fields) : Json :=
  .obj ([("kind", .str "Deployment"), ("replicas", .int replicas)] ++ more)

def deploymentRef : Ref := ⟨"deployments", "ns", "a"⟩

def serviceRef : Ref := ⟨"services", "ns", "a"⟩

/-- The server keeps what it accepts. -/
def clusterSample : OwnerRefInjectingClient (Ref → Option Json) where
  live w := w
  accept o := o
  build _ w := (.ok [⟨deploymentRef, true, deployment 2 []⟩, ⟨serviceRef, true, .obj []⟩], w)
  get k w := (match w k with
    | some o => .ok o
    | none => .error { kind := .notFound }, w)
  create k o w := match w k with
    | some _ => (.error {}, w)
    | none => (.ok (), Function.update w k (some o))
  patch k ops w := match (w k).bind (Json.applyAll false ops) with
    | some p => (.ok (), Function.update w k (some p))
    | none => (.error {}, w)
  setOwnerReferences o := match o with
    | .obj fs => .obj (Json.putField "owner" (.str "powerful") fs)
    | o => o
  live_build _ _ := rfl
  live_get _ _ := rfl
  get_ok k w o w' h := by
    cases hk : w k with
    | none => rw [hk] at h; cases h
    | some o' => rw [hk] at h; cases h; rfl
  get_notFound k w e w' h _ := by
    cases hk : w k with
    | none => rfl
    | some o' => rw [hk] at h; cases h
  create_ok k o w w' h := by
    cases hk : w k with
    | none =>
        simp only [hk] at h
        cases h
        exact Function.update_self k (some o) w
    | some o' => simp only [hk] at h; cases h
  create_other k o w l hl := by
    cases hk : w k with
    | none => exact Function.update_of_ne hl _ _
    | some o' => rfl
  patch_ok k ops w w' h := by
    cases hk : (w k).bind (Json.applyAll false ops) with
    | none => simp only [hk] at h; cases h
    | some p =>
        simp only [hk] at h
        cases h
        obtain ⟨o, ho, hp⟩ := Option.bind_eq_some_iff.mp hk
        exact ⟨o, p, ho, hp, Function.update_self k (some p) w⟩
  patch_other k ops w l hl := by
    cases hk : (w k).bind (Json.applyAll false ops) with
    | none => rfl
    | some p => exact Function.update_of_ne hl _ _

/-- The deployment has been scaled, and carries a field of the server. -/
def worldSample : VisitState (Ref → Option Json) where
  world := Function.update (fun _ => none) deploymentRef (some (deployment 5 [("status", .str "ready")]))

def infosSample : List Info :=
  [⟨deploymentRef, true, deployment 2 [("owner", .str "powerful")]⟩,
    ⟨serviceRef, true, .obj [("owner", .str "powerful")]⟩]

example : ((reconcileRelease patchSample clusterSample "").run worldSample).2.sent =
    [.patch deploymentRef [.replace ["replicas"] (.int 2), .add ["owner"] (.str "powerful")],
      .create serviceRef (.obj [("owner", .str "powerful")])] := by rfl

theorem expectedSample (s : VisitState (Ref → Option Json)) :
    Expected clusterSample "" s infosSample where
  built := rfl
  refs := by decide
  distinct := by
    simp [infosSample, deployment, Json.distinct_obj, Json.distinct_str, Json.distinct_int]

/-- There is no array in what is there. -/
theorem even_deployment (more : Fields) :
    Json.Even (deployment 5 [("status", .str "ready")]) (deployment 2 more) := by
  refine Json.even_obj fun g _ v hv => ?_
  obtain ⟨front, back, hfs, -⟩ := List.lookup_eq_some_iff.mp hv
  have hmem : (g.1, v) ∈ front ++ (g.1, v) :: back := List.mem_append_right front List.mem_cons_self
  rw [← hfs] at hmem
  simp only [List.cons_append, List.nil_append, List.mem_cons, Prod.mk.injEq, List.not_mem_nil,
    or_false] at hmem
  rcases hmem with ⟨-, rfl⟩ | ⟨-, rfl⟩ | ⟨-, rfl⟩ <;> exact Json.even_leaf (fun _ => rfl) nofun

theorem evenSample : ∀ i ∈ infosSample, ∀ o,
    clusterSample.live worldSample.world i.ref = some o → Json.Even o i.object := by
  refine List.forall_mem_cons.mpr ⟨fun o ho => ?_, List.forall_mem_cons.mpr ⟨nofun, nofun⟩⟩
  cases ho
  exact even_deployment _

/-! ### Patches and passes -/

/-- **A settled pass**: where everything that is expected is there and covers it, a pass sends nothing
and changes nothing; it succeeds where its reads are answered and the comparisons made. -/
theorem reconcileRelease_quiet {manifest : String} {s : VisitState ω} {infos : List Info}
    (hbuilt : (c.buildOwned manifest s.world).1 = .ok infos) (hdistinct : ∀ i ∈ infos, i.object.Distinct)
    (hcovers : ∀ i ∈ infos, ∃ o, c.live s.world i.ref = some o ∧ Json.Covers o i.object) :
    ((reconcileRelease lib c manifest).run s).2.sent = s.sent ∧
      c.live ((reconcileRelease lib c manifest).run s).2.world = c.live s.world ∧
      (Answered lib c infos (c.live s.world) →
        ((reconcileRelease lib c manifest).run s).1 = .ok ()) := by
  rw [run_reconcileRelease lib c hbuilt]
  have hbuild := live_buildOwned c manifest s.world
  have hquiet := visitAll_quiet lib c (s := { s with world := (c.buildOwned manifest s.world).2 })
    fun i hi => ⟨hdistinct i hi, by rw [hbuild]; exact hcovers i hi⟩
  simpa only [hbuild] using hquiet

/-- Everything is there, with what the server and others have added. -/
def settledSample : VisitState (Ref → Option Json) where
  world := Function.update (Function.update (fun _ => none) deploymentRef
    (some (deployment 2 [("status", .str "ready"), ("owner", .str "powerful")])))
    serviceRef (some (.obj [("owner", .str "powerful")]))

theorem reconcileRelease_quiet_sample :
    ((reconcileRelease patchSample clusterSample "").run settledSample).2.sent = [] ∧
    ((reconcileRelease patchSample clusterSample "").run settledSample).2.world = settledSample.world ∧
    ((reconcileRelease patchSample clusterSample "").run settledSample).1 = .ok () := by
  have hexpected := expectedSample settledSample
  have hcovers : ∀ i ∈ infosSample, ∃ o, clusterSample.live settledSample.world i.ref = some o ∧
      Json.Covers o i.object := by
    refine List.forall_mem_cons.mpr ⟨⟨_, rfl, ?_⟩, List.forall_mem_singleton.mpr ⟨_, rfl, ?_⟩⟩
    · exact Json.covers_overlay (deployment 2 [("owner", .str "powerful")])
        (hexpected.distinct _ List.mem_cons_self) (even_deployment _)
    · exact fun _ _ he => Or.inl he
  obtain ⟨hsent, hworld, hok⟩ := reconcileRelease_quiet patchSample clusterSample (s := settledSample)
    hexpected.built hexpected.distinct hcovers
  refine ⟨hsent, hworld, hok ⟨fun i hi w hw => ?_, fun i _ o _ => ⟨_, rfl⟩⟩⟩
  obtain rfl : w = settledSample.world := hw
  obtain ⟨o, ho, -⟩ := hcovers i hi
  have hheld : settledSample.world i.ref = some o := ho
  exact ⟨o, by simp only [clusterSample, hheld]⟩

/-- **A second pass**: what a pass that succeeds has left covers what is expected, if the server keeps
what is expected, so that the next one is quiet. -/
theorem reconcileRelease_again {manifest : String} {s s' : VisitState ω} {infos : List Info}
    (h : (reconcileRelease lib c manifest).run s = (.ok (), s'))
    (hinfos : Expected c manifest s infos)
    (heven : ∀ i ∈ infos, ∀ o, c.live s.world i.ref = some o → Json.Even o i.object)
    (haccept : ∀ i ∈ infos, ∀ o, Json.Covers o i.object → Json.Covers (c.accept o) i.object) :
    ∀ i ∈ infos, ∃ o, c.live s'.world i.ref = some o ∧ Json.Covers o i.object := by
  rw [run_reconcileRelease lib c hinfos.built] at h
  have hbuild := live_buildOwned c manifest s.world
  obtain ⟨visited, rest, rfl, hok, hsettled, -⟩ := visitAll_settles lib c h hinfos.refs
    hinfos.distinct fun i hi o ho => heven i hi o (by rwa [hbuild] at ho)
  rw [hok rfl, List.append_nil] at hinfos heven haccept ⊢
  intro i hi
  have hlaid := hsettled i hi
  rw [hbuild] at hlaid
  exact hlaid.covers c (hinfos.distinct i hi) (heven i hi) (haccept i hi)

end results

end Powerful.Helm
