import Mathlib
import Powerful.Service

/-! # What a step of an execution can do

`Does svc i t s s'` lists the steps that thread `t` takes while it works through the
instruction `i`.  The quiet ones (`Quiet`) stay within the process: it draws, propagates and
renders headers, writes to its own slot of the context, and changes the protocol and the call
of the next node.  (Response headers are rendered behind the executions: `Finishes`.)  The
other one calls out.  `doExecuteSingle_does` says that it takes no other ones, whatever the
other threads do, and `executeBody_steps` carries a relation that contains these steps over to
a whole execution.  Every result about all interleavings starts from here. -/

namespace Powerful

open Resumption Prog

variable {ρ : Type}

namespace Service
variable (svc : Service ρ)

/-- The steps of thread `t` that stay within the process. -/
inductive Quiet (t : ThreadId) : St ρ → St ρ → Prop
  | stay (s : St ρ) : Quiet t s s
  | drawn (s : St ρ) (r : ρ) : Quiet t s (s.withRand r)
  | propagated (s : St ρ) (node : PowerTraceNode) (rest : List PowerTraceNode)
      (headers : Option Headers) (h : s.nodes = node :: rest) :
      Quiet t s (s.withNodes ({ node with headers := headers } :: rest))
  | headerRendered (s : St ρ) (r : ρ) (k : String) (v : Option String) :
      Quiet t s ((s.withRand r).withCtx (s.ctx.putRequestHeader k v))
  | slotWritten (s : St ρ) (slot : Slot) : Quiet t s (s.withCtx (s.ctx.setSlot t slot))
  | prefixStripped (s : St ρ) (c : String) (h : s.nextCall = some c) :
      Quiet t s (s.modifyNext fun node => { node with call := some (substring c 8) })
  | protocolSet (s : St ρ) (protocol : String) :
      Quiet t s (s.modifyNext fun node => { node with by_ := some protocol })
  | callRendered (s : St ρ) (c : Option String) (r : ρ)
      (h : renderNullable svc.host (s.ctx.view t) s.nextCall s.world.rand = (.ok c, r)) :
      Quiet t s ((s.withRand r).modifyNext fun node => { node with call := c })

/-- The steps of thread `t` behind the executions: response headers are rendered too. -/
inductive Finishes (t : ThreadId) : St ρ → St ρ → Prop
  | quiet {s s' : St ρ} (h : Quiet svc t s s') : Finishes t s s'
  | responseHeaderRendered (s : St ρ) (node : PowerTraceNode) (rest : List PowerTraceNode) (r : ρ)
      (headers : Option Headers) (h : s.nodes = node :: rest) :
      Finishes t s ((s.withRand r).withNodes ({ node with responseHeaders := headers } :: rest))

/-- The steps of thread `t` at work on the instruction `i`. -/
inductive Does (i : Instruction) (t : ThreadId) : St ρ → St ρ → Prop
  | quiet {s s' : St ρ} (h : Quiet svc t s s') : Does i t s s'
  | invoked (s : St ρ) (sent : Instruction) (protocol : String) (invoker : RemoteInvoker ρ)
      (hsent : next i s = some sent) (hinvoker : svc.invokers protocol = some invoker) :
      Does i t s { s with world :=
        (invoker sent (s.ctx.view t) (s.world.put (.invocation s.request sent))).2 }

variable {svc}
variable {i : Instruction} {t : ThreadId}

theorem renderText_quiet (source : Option String) :
    (svc.renderText t source).Steps (svc.Quiet t) :=
  Steps.atomic fun s => .drawn s _

theorem draw_quiet {α : Type} (f : ρ → α × ρ) : (draw f : Run ρ α).Steps (svc.Quiet t) :=
  Steps.atomic fun s => .drawn s _

theorem sleep_quiet : (sleep : Run ρ Unit).Steps (svc.Quiet t) := Steps.modify fun s => .stay s

theorem propagateHeaders_quiet (j : Instruction) :
    (propagateHeaders j : Run ρ Unit).Steps (svc.Quiet t) := by
  refine Steps.atomic fun s => ?_
  split
  · split
    · exact .stay s
    · split
      · exact .stay s
      · rename_i node rest hnodes
        simp only
        split
        · exact .stay s
        · exact .propagated s node rest _ hnodes
  · exact .stay s

theorem renderHeader_quiet (k : String) : (svc.renderHeader t k).Steps (svc.Quiet t) := by
  refine Steps.atomic fun s => ?_
  split
  · exact .stay s
  · split
    · exact .drawn s _
    · exact .headerRendered s _ k _

theorem renderHeaderList_quiet : ∀ ks, (svc.renderHeaderList t ks).Steps (svc.Quiet t)
  | [] => Steps.pure ()
  | k :: ks => Steps.bind (renderHeader_quiet k) fun _ => renderHeaderList_quiet ks

theorem renderHeaders_quiet : (svc.renderHeaders t).Steps (svc.Quiet t) :=
  Steps.bind (Steps.read fun s => .stay s) fun names => renderHeaderList_quiet names

theorem invokeTestMethod_quiet (node : PowerTraceNode) :
    (svc.invokeTestMethod t node).Steps (svc.Quiet t) := by
  unfold invokeTestMethod
  split
  · exact Steps.pure ()
  · split
    · exact Steps.pure ()
    · split
      · exact Steps.throw _
      · exact Steps.bind (draw_quiet _) fun _ => Steps.modify fun s => .slotWritten s _

theorem delay_quiet (node : PowerTraceNode) : (delay node : Run ρ Unit).Steps (svc.Quiet t) := by
  unfold delay
  split
  · exact sleep_quiet
  · exact Steps.pure ()

theorem errorByPercent_quiet (node : PowerTraceNode) :
    (svc.errorByPercent node).Steps (svc.Quiet t) := by
  unfold errorByPercent
  split
  · exact Steps.throw _
  · split
    · refine Steps.bind (draw_quiet _) fun k => ?_
      split
      · exact Steps.throw _
      · exact Steps.pure ()
    · exact Steps.pure ()

theorem code_quiet (node : PowerTraceNode) : (svc.code node).Steps (svc.Quiet t) := by
  unfold code
  split
  · exact Steps.pure ()
  · split
    · exact Steps.throw _
    · exact Steps.throw _

theorem chooseProtocol_quiet : (chooseProtocol : Run ρ Unit).Steps (svc.Quiet t) := by
  refine Steps.bind (Steps.read fun s => .stay s) fun dubbo => ?_
  split
  · refine Steps.bind ?_ fun _ => Steps.modify fun s => .protocolSet s "dubbo"
    refine Steps.atomic fun s => ?_
    split
    · exact .stay s
    · split
      · exact .stay s
      · rename_i c hc _
        exact .prefixStripped s c hc
  · exact Steps.pure ()

theorem renderCall_quiet : (svc.renderCall t).Steps (svc.Quiet t) := by
  refine Steps.atomic fun s => ?_
  split
  · exact .drawn s _
  · rename_i c r h
    exact .callRendered s c r h

theorem setResult_quiet (response : PowerfulResponse) :
    (setResult t response : Run ρ Unit).Steps (svc.Quiet t) :=
  Steps.modify fun s => .slotWritten s _

theorem invoke_does {protocol : String} {invoker : RemoteInvoker ρ}
    (h : svc.invokers protocol = some invoker) : (invoke i t invoker).Steps (svc.Does i t) := by
  refine Steps.atomic fun s => ?_
  split
  · exact .quiet (.stay s)
  · rename_i sent hsent
    exact .invoked s sent protocol invoker hsent h

/-- The invoker comes from the table. -/
theorem invokerOf_holds (s : St ρ) :
    svc.invokerOf.Holds anyStep (svc.Quiet t)
      (fun r _ => ∀ invoker, r = .ok invoker → ∃ protocol, svc.invokers protocol = some invoker) s := by
  refine Holds.atomic fun s _ => ?_
  split
  · rename_i invoker h
    refine ⟨.stay s, fun _ _ invoker' heq => ?_⟩
    obtain rfl := Except.ok.inj heq
    obtain ⟨protocol, -, hinvoker⟩ := Option.bind_eq_some_iff.mp h
    exact ⟨protocol, hinvoker⟩
  · refine ⟨.stay s, fun _ _ invoker' heq => ?_⟩
    cases heq

theorem Quiet.does (i : Instruction) {α : Type} {p : Run ρ α} (h : p.Steps (svc.Quiet t)) :
    p.Steps (svc.Does i t) := Steps.mono (fun _ _ h => .quiet h) h

theorem callNext_does : (svc.callNext i t).Steps (svc.Does i t) := by
  refine Steps.bind (Quiet.does i chooseProtocol_quiet) fun _ s => ?_
  refine Holds.bind (Holds.mono ?_ (Holds.weaken (fun _ _ h => h) (fun _ _ h => .quiet h)
    (invokerOf_holds s)))
  intro r s hr
  cases r with
  | error e => trivial
  | ok invoker =>
      obtain ⟨protocol, hinvoker⟩ := hr invoker rfl
      refine Steps.bind (Quiet.does i renderCall_quiet) (fun _ => ?_) s
      refine Steps.bind (Steps.read fun s => .quiet (.stay s)) fun empty => ?_
      split
      · exact Steps.pure none
      · exact Steps.bind (invoke_does hinvoker) fun response =>
          Steps.bind (Quiet.does i (setResult_quiet response)) fun _ => Steps.pure _

theorem call_does : (svc.call i t).Steps (svc.Does i t) := by
  refine Steps.bind (Steps.read fun s => .quiet (.stay s)) fun last => ?_
  split
  · exact Steps.pure none
  · exact callNext_does

theorem doExecuteSingle_does : (svc.doExecuteSingle i t).Steps (svc.Does i t) := by
  refine Steps.bind (Quiet.does i (propagateHeaders_quiet i)) fun _ => ?_
  refine Steps.bind (Quiet.does i renderHeaders_quiet) fun _ => ?_
  refine Steps.bind (Steps.read fun s => .quiet (.stay s)) fun node? => ?_
  cases node? with
  | none => exact Steps.throw _
  | some node =>
      refine Steps.bind (Quiet.does i (invokeTestMethod_quiet node)) fun _ => ?_
      refine Steps.bind (Quiet.does i (delay_quiet node)) fun _ => ?_
      refine Steps.bind (Quiet.does i (errorByPercent_quiet node)) fun _ => ?_
      exact Steps.bind (Quiet.does i (code_quiet node)) fun _ => call_does

/-! ### A whole execution -/

theorem storeDelay_quiet (n : ℕ) : (svc.storeDelay t n).Steps (svc.Quiet t) :=
  Steps.bind (draw_quiet _) fun _ => Steps.bind (Steps.modify fun s => .slotWritten s _) fun _ =>
    Steps.pure _

theorem conclude_quiet (handleException : Bool) (template : Option String) (n : ℕ)
    (outcome : Except Exc (Option PowerfulResponse)) :
    (svc.conclude t handleException template n outcome).Steps (svc.Quiet t) := by
  cases outcome with
  | ok response => exact Steps.bind (storeDelay_quiet n) fun _ => Steps.pure _
  | error e =>
      cases handleException with
      | true =>
          exact Steps.bind (setResult_quiet _) fun _ => Steps.bind (storeDelay_quiet n) fun _ =>
            Steps.pure _
      | false =>
          refine Steps.bind (Steps.attempt (renderText_quiet template)) fun record => ?_
          refine Steps.bind (storeDelay_quiet n) fun _ => ?_
          cases record with
          | ok record => exact Steps.throw _
          | error e' => exact Steps.throw _

theorem awaitTurn_quiet (qps : ℚ) : (svc.awaitTurn qps).Steps (svc.Quiet t) := by
  unfold awaitTurn
  split
  · exact Steps.pure ()
  · exact Steps.bind (draw_quiet _) fun _ => Steps.pure ()

/-- What iteration `n` works through: the instruction itself without `rr`, and else what
`processLoop` makes of it. -/
def Processed (svc : Service ρ) (i : Instruction) (n : ℕ) (i' : Instruction) : Prop :=
  if i.rr.map AList.entries = some [] then i' = i
  else ∃ ns, svc.processLoop { i with trace := some ns } n = .ok i'

section carry
variable {G : St ρ → St ρ → Prop}

/-- A relation that contains the steps of every instruction worked through contains the steps
of the execution; where nodes are copied it must not look at them. -/
theorem executeProcessed_steps {n : ℕ}
    (hdoes : ∀ i', Processed svc i n i' → ∀ s s', svc.Does i' t s s' → G s s')
    (hcopy : i.rr.map AList.entries ≠ some [] →
      ∀ ns s s', G (s.withNodes ns) s' → G s (s'.withNodes s.nodes))
    (hrefl : ∀ s, G s s) : (svc.executeProcessed i t n).Steps G := by
  intro s
  apply Holds.bind
  refine Holds.atomic fun s' _ => ⟨hrefl s', fun s'' _ => ?_⟩
  cases hp : svc.processLoop { i with trace := some s'.nodes } n with
  | error e => trivial
  | ok i' =>
      simp only
      by_cases hrr : i.rr.map AList.entries = some []
      · rw [if_pos hrr]
        have hi : Processed svc i n i := by rw [Processed, if_pos hrr]
        exact Holds.weaken (fun _ _ h => h) (hdoes i hi) (doExecuteSingle_does s'')
      · rw [if_neg hrr]
        have hi' : Processed svc i n i' := by
          rw [Processed, if_neg hrr]
          exact ⟨s'.nodes, hp⟩
        refine Steps.withCopy (hcopy hrr) (fun s => ?_) _ s''
        exact Holds.weaken (fun _ _ h => h) (hdoes i' hi') (doExecuteSingle_does s)

theorem executeBody_steps {handleException : Bool} {qps : ℚ} {n : ℕ}
    (hdoes : ∀ i', Processed svc i n i' → ∀ s s', svc.Does i' t s s' → G s s')
    (hquiet : ∀ s s', svc.Quiet t s s' → G s s')
    (hcopy : i.rr.map AList.entries ≠ some [] →
      ∀ ns s s', G (s.withNodes ns) s' → G s (s'.withNodes s.nodes)) :
    (svc.executeBody i t handleException qps n).Steps G := by
  have hstay : ∀ s, G s s := fun s => hquiet s s (.stay s)
  refine Steps.bind (Steps.mono hquiet (awaitTurn_quiet qps)) fun _ => ?_
  refine Steps.bind (Steps.ofExcept _) fun template => ?_
  refine Steps.bind (Steps.mono hquiet sleep_quiet) fun _ => ?_
  refine Steps.bind (Steps.mono hquiet (draw_quiet _)) fun requestStarts => ?_
  refine Steps.bind (Steps.attempt (executeProcessed_steps hdoes hcopy hstay)) fun outcome => ?_
  refine Steps.bind (Steps.mono hquiet (conclude_quiet _ _ _ outcome)) fun own => ?_
  refine Steps.bind (Steps.read hstay) fun delayMillis => ?_
  exact Steps.bind (Steps.mono hquiet (renderText_quiet template)) fun _ => Steps.pure _

end carry

/-- No step of an execution counts executions. -/
theorem Quiet.executions {s s' : St ρ} (h : svc.Quiet t s s') : s'.executions = s.executions := by
  cases h <;> rfl

theorem Does.executions {s s' : St ρ} (h : svc.Does i t s s') : s'.executions = s.executions := by
  cases h with
  | quiet h => exact h.executions
  | invoked => rfl

theorem Quiet.iterations {s s' : St ρ} (h : svc.Quiet t s s') : s'.iterations = s.iterations := by
  cases h <;> rfl

theorem Does.iterations {s s' : St ρ} (h : svc.Does i t s s') : s'.iterations = s.iterations := by
  cases h with
  | quiet h => exact h.iterations
  | invoked => rfl

theorem executeBody_executions (handleException : Bool) (qps : ℚ) (n : ℕ) :
    (svc.executeBody i t handleException qps n).Steps fun s s' => s'.executions = s.executions :=
  executeBody_steps (fun _ _ _ _ h => h.executions) (fun _ _ h => h.executions)
    fun _ _ _ _ h => h

end Service

end Powerful
