import Mathlib
import Powerful.ExecutionSteps
import Powerful.Workers

/-! # Worker isolation

All worker threads of a request share one context, but each writes its response and its delay
to a slot of its own.  A record is rendered from the slot of its thread, so it shows the
response and the delay of its own execution, if that execution stored a response
(`OwnRecord`).  It stores none only if the call of the next node was empty when the execution
came to it.  The call is shared and every execution replaces it by its rendering; once empty
it stays empty (`KeepsEmpty`).

`executeSingle_own` is the triple of one execution, `worker_own` that of a thread, and
`record_own` the result for all interleavings of the pool. -/

namespace Powerful

open Resumption Prog

variable {ρ : Type}

namespace Service

/-- The call of the next node, once empty, is empty for good. -/
def KeepsEmpty (s s' : St ρ) : Prop := isEmpty s.nextCall → isEmpty s'.nextCall

/-- What the other threads do to thread `t`: they leave its slot alone. -/
def KeepsSlot (t : ThreadId) (s s' : St ρ) : Prop :=
  s'.ctx.results t = s.ctx.results t ∧ KeepsEmpty s s'

/-- What thread `t` does to the other threads. -/
def KeepsOthers (t : ThreadId) (s s' : St ρ) : Prop :=
  (∀ u ≠ t, s'.ctx.results u = s.ctx.results u) ∧ KeepsEmpty s s'

instance : IsPreorder (St ρ) KeepsEmpty where
  refl _ h := h
  trans _ _ _ h h' := fun hs => h' (h hs)

instance (t : ThreadId) : IsPreorder (St ρ) (KeepsSlot t) where
  refl _ := ⟨rfl, fun h => h⟩
  trans _ _ _ h h' := ⟨h'.1.trans h.1, fun hs => h'.2 (h.2 hs)⟩

theorem KeepsSlot.getResults {t : ThreadId} {s s' : St ρ} (h : KeepsSlot t s s') :
    s'.ctx.getResults t = s.ctx.getResults t := by
  unfold RenderingContext.getResults
  rw [h.1]

theorem nextCall_modifyNext (s : St ρ) (f : PowerTraceNode → PowerTraceNode) :
    (s.modifyNext f).nextCall = s.nodes[1]?.bind fun node => (f node).call := by
  unfold St.modifyNext St.nextCall
  rw [List.getElem?_modify_eq]
  cases s.nodes[1]? <;> rfl

variable {svc : Service ρ}
variable {i : Instruction} {t : ThreadId}

/-- No step of an execution touches the slots of other threads, or fills an empty call. -/
theorem Quiet.keepsOthers {s s' : St ρ} (h : svc.Quiet t s s') : KeepsOthers t s s' := by
  cases h with
  | slotWritten slot =>
      refine ⟨fun u hu => ?_, fun hs => hs⟩
      simp only [St.withCtx, RenderingContext.setSlot]
      rw [Function.update_of_ne hu]
  | propagated node rest headers hnodes =>
      refine ⟨fun _ _ => rfl, fun hs => ?_⟩
      unfold St.nextCall at hs ⊢
      rw [hnodes] at hs
      exact hs
  | prefixStripped c hc =>
      refine ⟨fun _ _ => rfl, fun hs => ?_⟩
      rw [nextCall_modifyNext]
      unfold St.nextCall at hc hs
      obtain ⟨node, hnode, hcall⟩ := Option.bind_eq_some_iff.mp hc
      rw [hnode] at hs ⊢
      simp only [Option.bind_some, hcall, isEmpty] at hs ⊢
      simp only [reduceCtorEq, decide_false, Bool.false_or, decide_eq_true_eq] at hs
      obtain rfl := Option.some.inj hs
      rfl
  | protocolSet protocol =>
      refine ⟨fun _ _ => rfl, fun hs => ?_⟩
      rw [nextCall_modifyNext]
      exact hs
  | callRendered c r hr =>
      refine ⟨fun _ _ => rfl, fun hs => ?_⟩
      rw [nextCall_modifyNext]
      unfold St.nextCall at hr hs
      show isEmpty (s.nodes[1]?.bind fun _ => c)
      cases hnode : s.nodes[1]? with
      | none => rfl
      | some node =>
          rw [hnode] at hr hs
          simp only [Option.bind_some] at hr hs ⊢
          cases hcall : node.call with
          | none =>
              rw [hcall] at hr
              cases hr
              rfl
          | some text =>
              rw [hcall] at hr hs
              obtain rfl : text = "" := by simpa [isEmpty] using hs
              cases hr
              rfl
  | _ => exact ⟨fun _ _ => rfl, fun hs => hs⟩

theorem Does.keepsOthers {s s' : St ρ} (h : svc.Does i t s s') : KeepsOthers t s s' := by
  cases h with
  | quiet h => exact h.keepsOthers
  | invoked => exact ⟨fun _ _ => rfl, fun hs => hs⟩

/-! ### One execution -/

/-- The record shows the response and the delay of its own execution. -/
def OwnRecord (h : Host ρ) (source : Option String) (r : Result) : Prop :=
  ∀ response, r.response = some response → r.delayMillis = r.measured ∧
    ∃ v rnd rnd', v.slot.response = response ∧ v.slot.delayMillis = r.measured ∧
      renderNullable h v source rnd = (.ok r.renderResult, rnd')

/-- A record is good: it is its own, and without a response the call is empty. -/
def Good (h : Host ρ) (source : Option String) (r : Result) (s : St ρ) : Prop :=
  OwnRecord h source r ∧ (r.response = none → isEmpty s.nextCall)

/-- What the body of an execution leaves: its response in the slot, or an empty call. -/
def Left (t : ThreadId) (r : Except Exc (Option PowerfulResponse)) (s : St ρ) : Prop :=
  (∀ response, r = .ok (some response) → (s.ctx.getResults t).response = response) ∧
    (r = .ok none → isEmpty s.nextCall)

theorem Left.stable {r : Except Exc (Option PowerfulResponse)} {s s' : St ρ} (h : Left t r s)
    (hs : KeepsSlot t s s') : Left t r s' := by
  refine ⟨fun response hr => ?_, fun hr => hs.2 (h.2 hr)⟩
  rw [hs.getResults]
  exact h.1 response hr

theorem left_error (e : Exc) (s : St ρ) : Left t (.error e) s := by
  constructor
  · intro response h
    cases h
  · intro h
    cases h

theorem callNext_left (s : St ρ) :
    Holds (KeepsSlot t) anyStep (Left t) (svc.callNext i t) s := by
  refine Holds.seq (Holds.trivial _) (fun _ s₁ => ?_) left_error s
  refine Holds.seq (Holds.trivial _) (fun invoker s₂ => ?_) left_error s₁
  refine Holds.seq (Holds.trivial _) (fun _ s₃ => ?_) left_error s₂
  refine Holds.bind (Holds.read fun s₄ _ => ⟨trivial, fun s₅ h₅ => ?_⟩)
  cases hempty : isEmpty s₄.nextCall with
  | true =>
      intro s₆ h₆
      refine ⟨fun response hr => ?_, fun _ => h₆.2 (h₅.2 hempty)⟩
      cases hr
  | false =>
      refine Holds.seq (Holds.trivial _) (fun response s₆ => ?_) left_error s₅
      refine Holds.bind (Holds.modify fun s₇ _ => ⟨trivial, fun s₈ h₈ => ?_⟩)
      intro s₉ h₉
      constructor
      · intro response' hr
        obtain rfl := Option.some.inj (Except.ok.inj hr)
        rw [h₉.getResults, h₈.getResults]
        simp [St.withCtx, RenderingContext.setResult]
      · intro hr
        cases hr

theorem doExecuteSingle_left (s : St ρ) :
    Holds (KeepsSlot t) anyStep (Left t) (svc.doExecuteSingle i t) s := by
  refine Holds.seq (Holds.trivial _) (fun _ s₁ => ?_) left_error s
  refine Holds.seq (Holds.trivial _) (fun _ s₂ => ?_) left_error s₁
  refine Holds.seq (Holds.trivial _) (fun node? s₃ => ?_) left_error s₂
  cases node? with
  | none => exact fun s₄ _ => left_error _ s₄
  | some node =>
      refine Holds.seq (Holds.trivial _) (fun _ s₄ => ?_) left_error s₃
      refine Holds.seq (Holds.trivial _) (fun _ s₅ => ?_) left_error s₄
      refine Holds.seq (Holds.trivial _) (fun _ s₆ => ?_) left_error s₅
      refine Holds.seq (Holds.trivial _) (fun _ s₇ => ?_) left_error s₆
      refine Holds.bind (Holds.read fun s₈ _ => ⟨trivial, fun s₉ h₉ => ?_⟩)
      cases hlast : s₈.nodes[1]?.isNone with
      | false => exact callNext_left s₉
      | true =>
          intro s₁₀ h₁₀
          refine ⟨fun response hr => ?_, fun _ => h₁₀.2 (h₉.2 ?_)⟩
          · cases hr
          · unfold St.nextCall
            rw [Option.isNone_iff_eq_none.mp hlast]
            rfl

/-- The measured delay is stored, and the response stays. -/
theorem storeDelay_own (n : ℕ) (s : St ρ) :
    Holds (KeepsSlot t) anyStep (fun r u => ∀ d, r = .ok d →
      (u.ctx.getResults t).response = (s.ctx.getResults t).response ∧
      (u.ctx.getResults t).delayMillis = d ∧ KeepsEmpty s u) (svc.storeDelay t n) s := by
  refine Holds.bind (Holds.atomic fun s₁ h₁ => ⟨trivial, fun s₂ h₂ => ?_⟩)
  refine Holds.bind (Holds.modify fun s₃ h₃ => ⟨trivial, fun s₄ h₄ => ?_⟩)
  intro s₅ h₅ d hd
  obtain rfl := Except.ok.inj hd
  have hslot : s₅.ctx.getResults t =
      (s₃.ctx.setDelayMillis t
        ((((svc.host.nanoTime s₁.world.rand).1 : ℕ) - (n : ℚ)) / 1000000)).getResults t := by
    rw [h₅.getResults, h₄.getResults]
    rfl
  have hbefore : s₃.ctx.getResults t = s.ctx.getResults t := by
    rw [h₃.getResults, h₂.getResults]
    exact h₁.getResults
  refine ⟨?_, ?_, fun hs => h₅.2 (h₄.2 (h₃.2 (h₂.2 (h₁.2 hs))))⟩
  · rw [hslot]
    simp [RenderingContext.setDelayMillis, hbefore]
  · rw [hslot]
    simp [RenderingContext.setDelayMillis]

/-- Storing the outcome: the slot holds the response and the delay of this execution. -/
theorem conclude_own (source : Option String) (n : ℕ) {outcome : Except Exc (Option PowerfulResponse)}
    {s : St ρ} (h : Left t outcome s) :
    Holds (KeepsSlot t) anyStep (fun r u => ∀ own, r = .ok own →
      (∀ response, own.1 = some response → (u.ctx.getResults t).response = response) ∧
      (own.1 = none → isEmpty u.nextCall) ∧ (u.ctx.getResults t).delayMillis = own.2)
      (svc.conclude t true source n outcome) s := by
  cases outcome with
  | ok response? =>
      refine Holds.bind (Holds.mono ?_ (storeDelay_own n s))
      intro r s₁ hr
      cases r with
      | error e =>
          intro own hown
          cases hown
      | ok d =>
          obtain ⟨hresponse, hdelay, hempty⟩ := hr d rfl
          intro s₂ h₂ own hown
          obtain rfl := Except.ok.inj hown
          refine ⟨fun response heq => ?_, fun heq => ?_, ?_⟩
          · rw [h₂.getResults, hresponse]
            exact h.1 response (congrArg Except.ok heq)
          · exact h₂.2 (hempty (h.2 (congrArg Except.ok heq)))
          · rw [h₂.getResults, hdelay]
  | error e =>
      refine Holds.bind (Holds.modify fun s₁ h₁ => ⟨trivial, fun s₂ h₂ => ?_⟩)
      have hstored : (s₂.ctx.getResults t).response = errorResponse e := by
        rw [h₂.getResults]
        simp [St.withCtx, RenderingContext.setResult]
      refine Holds.bind (Holds.mono ?_ (storeDelay_own n s₂))
      intro r s₃ hr
      cases r with
      | error e =>
          intro own hown
          cases hown
      | ok d =>
          obtain ⟨hresponse, hdelay, -⟩ := hr d rfl
          intro s₄ h₄ own hown
          obtain rfl := Except.ok.inj hown
          refine ⟨fun response heq => ?_, fun heq => ?_, ?_⟩
          · rw [h₄.getResults, hresponse, hstored]
            exact Option.some.inj heq
          · cases heq
          · rw [h₄.getResults, hdelay]

/-- **One execution**: whatever the other threads do, its record is good. -/
theorem executeBody_own {source : Option String} (hsource : template i = .ok source)
    (hrr : i.rr.map AList.entries = some []) (qps : ℚ) (n : ℕ) (s : St ρ) :
    Holds (KeepsSlot t) anyStep (fun r u => ∀ res, r = .ok res → Good svc.host source res u)
      (svc.executeBody i t true qps n) s := by
  have he : ∀ (e : Exc) (u : St ρ) (res : Result), (.error e : Except Exc Result) = .ok res →
      Good svc.host source res u := fun e u res h => by cases h
  unfold executeBody
  simp only [hsource, ofExcept_bind]
  refine Holds.seq (Holds.trivial _) (fun _ s₁ => ?_) he s
  refine Holds.seq (Holds.trivial _) (fun _ s₂ => ?_) he s₁
  refine Holds.seq (Holds.trivial _) (fun requestStarts s₃ => ?_) he s₂
  have hbody : Holds (KeepsSlot t) anyStep (Left t) (svc.executeProcessed i t n) s₃ := by
    refine Holds.seq (Holds.trivial _) (fun i' s₄ => ?_) left_error s₃
    rw [if_pos hrr]
    exact doExecuteSingle_left s₄
  refine Holds.bind (Holds.attempt (Holds.mono ?_ hbody))
  intro outcome s₄ hleft
  refine Holds.bind (Holds.mono ?_ (conclude_own source requestStarts hleft))
  intro r s₅ hr
  cases r with
  | error e => exact he e s₅
  | ok own =>
      obtain ⟨hresponse, hempty, hdelay⟩ := hr own rfl
      refine Holds.bind (Holds.read fun s₆ h₆ => ⟨trivial, fun s₇ h₇ => ?_⟩)
      refine Holds.bind (Holds.atomic fun s₈ h₈ => ⟨trivial, fun s₉ h₉ => ?_⟩)
      have hslot : s₈.ctx.getResults t = s₅.ctx.getResults t := by
        rw [h₈.getResults, h₇.getResults, h₆.getResults]
      cases hrender : renderNullable svc.host (s₈.ctx.view t) source s₈.world.rand with
      | mk out rnd' =>
          rw [hrender] at h₉
          simp only at h₉ ⊢
          cases out with
          | error e => exact he e s₉
          | ok text =>
              intro s₁₀ h₁₀ res hres
              obtain rfl := Except.ok.inj hres
              constructor
              · intro response heq
                refine ⟨?_, s₈.ctx.view t, s₈.world.rand, rnd', ?_, ?_, hrender⟩
                · show (s₆.ctx.getResults t).delayMillis = own.2
                  rw [h₆.getResults, hdelay]
                · show (s₈.ctx.getResults t).response = response
                  rw [hslot, hresponse response heq]
                · show (s₈.ctx.getResults t).delayMillis = own.2
                  rw [hslot, hdelay]
              · intro heq
                exact h₁₀.2 (h₉.2 (h₈.2 (h₇.2 (h₆.2 (hempty heq)))))

theorem executeSingle_own {source : Option String} (hsource : template i = .ok source)
    (hrr : i.rr.map AList.entries = some []) (qps : ℚ) (n : ℕ) (s : St ρ) :
    Holds (KeepsSlot t) anyStep (fun r u => ∀ res, r = .ok res → Good svc.host source res u)
      (svc.executeSingle i t true qps n) s := by
  refine Holds.seq (Holds.trivial _) (fun _ s₁ => executeBody_own hsource hrr qps n s₁) ?_ s
  intro e u res h
  cases h

/-- What the other threads see of an execution. -/
theorem executeSingle_others (hrr : i.rr.map AList.entries = some []) (qps : ℚ) (n : ℕ) :
    (svc.executeSingle i t true qps n).Steps (KeepsOthers t) := by
  refine Steps.bind (Steps.modify fun s => ⟨fun _ _ => rfl, fun hs => hs⟩) fun _ => ?_
  exact executeBody_steps (fun _ _ _ _ h => h.keepsOthers) (fun _ _ h => h.keepsOthers)
    fun h => absurd hrr h

/-! ### Tasks and threads -/

theorem Good.stable {h : Host ρ} {source : Option String} {r : Result} {s s' : St ρ}
    (hs : KeepsEmpty s s') (hr : Good h source r s) : Good h source r s' :=
  ⟨hr.1, fun hnone => hs (hr.2 hnone)⟩

section threads
variable {source : Option String} (hsource : template i = .ok source)
  (hrr : i.rr.map AList.entries = some [])
include hsource hrr

theorem task_own (k : ℕ) (s : St ρ) :
    Holds (KeepsSlot t) KeepsEmpty
      (fun r u => ∀ rs, r = .ok rs → ∀ res ∈ rs, Good svc.host source res u) (svc.task i t k) s := by
  refine Holds.rangeStable (fun _ _ h => h.2) (fun _ _ _ hs hr => hr.stable hs) (fun j s => ?_) _ 0 s
  have hown : Holds (KeepsSlot t) anyStep (fun r u => ∀ res, r = .ok res → Good svc.host source res u)
      (svc.executeSingle i t true (i.qps.toInt / (threadCount i : ℚ)) j) s :=
    executeSingle_own hsource hrr _ j s
  have hboth := Holds.and hown (executeSingle_others hrr _ j s)
  exact Holds.mono (fun _ _ h => h.1)
    (Holds.weaken (fun _ _ h => ⟨h, trivial⟩) (fun _ _ h => h.2.2) hboth)

/-- **One thread**: all records of its tasks are good. -/
theorem worker_own : ∀ (ks : List ℕ) (s : St ρ),
    Holds (KeepsSlot t) KeepsEmpty (fun r u => ∀ os, r = .ok os →
      ∀ o ∈ os, ∀ rs, o.2 = .ok rs → ∀ res ∈ rs, Good svc.host source res u) (svc.worker i t ks) s
  | [], s => by
      rintro u - os hos o ho
      obtain rfl := Except.ok.inj hos
      cases ho
  | k :: ks, s => by
      refine Holds.bind (Holds.attempt (Holds.mono ?_ (task_own hsource hrr k s)))
      intro outcome s₁ houtcome
      refine Holds.bind (Holds.mono ?_ (Holds.track (fun _ _ h => h.2) (worker_own ks s₁)))
      rintro r s₂ ⟨hrest, hkeeps⟩
      cases r with
      | error e =>
          intro os hos
          cases hos
      | ok rest =>
          intro s₃ h₃ os hos o ho rs hrs res hres
          obtain rfl := Except.ok.inj hos
          rcases List.mem_cons.mp ho with rfl | ho
          · exact (houtcome rs hrs res hres).stable (trans_of KeepsEmpty hkeeps h₃.2)
          · exact (hrest rest rfl o ho rs hrs res hres).stable h₃.2

omit hsource in
theorem worker_others : ∀ ks, (svc.worker i t ks).Steps (KeepsOthers t)
  | [] => Steps.pure []
  | _ :: ks => Steps.bind (Steps.attempt (Steps.range (fun j => executeSingle_others hrr _ j) _ 0))
      fun _ => Steps.bind (worker_others ks) fun _ => Steps.pure _

end threads

/-- No thread of the run ever finds the call of the next node empty. -/
def CallStays (svc : Service ρ) (i : Instruction) (s : St ρ) : Prop :=
  ∀ n ≤ svc.schedule.length,
    isEmpty (interleave (svc.schedule.take n) (svc.workers i) s).2.nextCall = false

/-- **Worker isolation**: however the threads take turns, each record shows the response and
the delay of its own execution, as long as the call does not become empty. -/
theorem record_own {source : Option String} (hsource : template i = .ok source)
    (hrr : i.rr.map AList.entries = some []) {s : St ρ} (hcall : CallStays svc i s) {k : ℕ}
    {rs : List Result}
    (hk : svc.future (interleave svc.schedule (svc.workers i) s).1 k = some (.ok rs)) :
    ∀ r ∈ rs, r.response.isSome ∧ OwnRecord svc.host source r := by
  have hempty := hcall svc.schedule.length (le_refl _)
  rw [List.take_length] at hempty
  have hthread : ∀ w, Holds (KeepsSlot w) (KeepsOthers w) (fun r u => ∀ os, r = .ok os →
      ∀ o ∈ os, ∀ rs, o.2 = .ok rs → ∀ res ∈ rs, Good svc.host source res u) (svc.workers i w) s := by
    intro w
    have hown : Holds (KeepsSlot w) KeepsEmpty (fun r u => ∀ os, r = .ok os →
        ∀ o ∈ os, ∀ rs, o.2 = .ok rs → ∀ res ∈ rs, Good svc.host source res u) (svc.workers i w) s :=
      worker_own hsource hrr (svc.tasksOf i w) s
    have hboth := Holds.and hown (worker_others hrr (svc.tasksOf i w) s)
    exact Holds.mono (fun _ _ h => h.1)
      (Holds.weaken (fun _ _ h => ⟨h, trivial⟩) (fun _ _ h => h.2) hboth)
  obtain ⟨os, hos, hmem⟩ := svc.mem_of_future hk
  have hgood := interleave_outcome
    (fun w u hwu _ _ h => ⟨h.1 u (Ne.symm hwu), h.2⟩) hthread hos os rfl (k, .ok rs) hmem rs rfl
  intro r hr
  obtain ⟨hown, hnone⟩ := hgood r hr
  refine ⟨?_, hown⟩
  cases hresponse : r.response with
  | some response => rfl
  | none =>
      rw [hnone hresponse] at hempty
      cases hempty

/-- A pool of two threads, with a target that answers every call and counts them. -/
def countingService (schedule : List ThreadId) : Service Unit where
  host := .bare
  invokers _ := some fun _ _ w =>
    (.ok { result := .int w.log.length, status := some "404 NOT_FOUND" }, w)
  schedule := schedule

/-- Three executions in two tasks that call one target. -/
def callingInstruction (call : String) : Instruction where
  trace := some [{}, { call := some call }]
  times := 3
  threads := 2
  collectBy := some "list"
  traceNodeTmpl := some "{{statusCode()}}"

/-- The state of its run, which has one request parameter. -/
def callingState (call : String) : St Unit where
  nodes := (callingInstruction call).nodes
  ctx := { RenderingContext.new 7 with
    params := AList.insert "p" (some "{{env(NOPE)}}") ∅ }
  world := { rand := () }
  request := callingInstruction call

/-- The records of the first task of the run. -/
def recordsOf (schedule : List ThreadId) (call : String) : Option (List Result) :=
  ((countingService schedule).future (interleave schedule
    ((countingService schedule).workers (callingInstruction call)) (callingState call)).1 0).bind
      Except.toOption

/-- The two threads take turns. -/
def inTurns : List ThreadId := (List.replicate 40 [0, 1]).flatten

/-- One thread after the other. -/
def inSequence : List ThreadId := List.replicate 60 0 ++ List.replicate 40 1

theorem record_own_sample : ∃ rs, rs.length = 2 ∧
    (countingService inTurns).future (interleave inTurns
      ((countingService inTurns).workers (callingInstruction "a")) (callingState "a")).1 0 =
        some (.ok rs) ∧
    ∀ r ∈ rs, r.response.isSome ∧
      OwnRecord Host.bare (some "{{statusCode()}} -> {{resultBody()}}") r := by
  have hcall : CallStays (countingService inTurns) (callingInstruction "a") (callingState "a") := by
    unfold CallStays
    decide +kernel
  have hrecords : (recordsOf inTurns "a").map List.length = some 2 := by decide +kernel
  unfold recordsOf at hrecords
  cases hk : (countingService inTurns).future (interleave inTurns
      ((countingService inTurns).workers (callingInstruction "a")) (callingState "a")).1 0 with
  | none =>
      rw [hk] at hrecords
      cases hrecords
  | some outcome =>
      cases outcome with
      | error e =>
          rw [hk] at hrecords
          cases hrecords
      | ok rs =>
          rw [hk] at hrecords
          exact ⟨rs, Option.some.inj hrecords, rfl,
            record_own (i := callingInstruction "a") rfl rfl hcall hk⟩

/-- The call is rendered to a text that is rendered again, to nothing: the second execution of
the first task makes no call and records what the first one got. -/
theorem record_not_own :
    1 < threadCount (callingInstruction "{{param(p)}}") ∧
    (callingInstruction "{{param(p)}}").rr.map AList.entries = some [] ∧
    (render Host.bare ((callingState "{{param(p)}}").ctx.view 0) "{{param(p)}}" ()).1.toOption =
      some "{{env(NOPE)}}" ∧
    (recordsOf inSequence "{{param(p)}}").map (List.map fun r =>
      (r.response.map fun response => response.status, r.renderResult)) =
      some [(some (some "404 NOT_FOUND"), some "404 NOT_FOUND -> 1"),
        (none, some "404 NOT_FOUND -> 1")] := by
  exact ⟨by decide, rfl, by decide +kernel, by decide +kernel⟩

end Service

end Powerful
