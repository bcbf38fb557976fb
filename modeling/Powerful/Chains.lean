import Mathlib
import Powerful.Iterations
import Powerful.RequestCases

/-! # Chains of calls

A case is executed by its own process, which calls the first node of the trace; that one calls the
second, and so on up to the first node whose code is not 200.  Each hop renders the template of the
records, puts the answer of the next hop behind it, and answers with that.

`Chain` says what the hops of a trace do, hop by hop, and in which context each of them renders;
`execute_chain` says that they do so: every node up to the first one that fails is called once, in the
order of the trace, and answers with its own code. -/

namespace Powerful

open Resumption Prog Service

variable {ρ : Type}

/-! ### Hops -/

/-- A hop: the request, and the answer to it. -/
structure Visit where
  delivery : Delivery
  status : ℤ
  text : String

/-- The template of the records, with null read as the text `null`. -/
def Delivery.tmpl (d : Delivery) : String := orNull d.instruction.traceNodeTmpl

/-- The message of a code that is not 200. -/
def codeText (code : ℤ) (name : String) : String := orNull (Exc.statusCode code name).getMessage

/-- The instruction with which a node is called. -/
def sentTo (i : Instruction) (n : PowerTraceNode) (target : String) (tail : List PowerTraceNode) :
    Instruction :=
  { i with trace := some ({ n with call := some target } :: tail), times := 1, threads := 1, qps := 0 }

/-- The context in which a hop renders, with the headers as far as they are rendered. -/
def Delivery.view (d : Delivery) (headers : Headers) (slot : Slot) : View :=
  ⟨some headers, d.path, d.params, slot⟩

/-- The headers of these names are rendered one after the other, each next to the ones before. -/
inductive RendersHeaders (h : Host ρ) (d : Delivery) : List String → Headers → Headers → Prop
  | done (headers : Headers) : RendersHeaders h d [] headers headers
  | next {k : String} {ks : List String} {headers final : Headers} {value out : Option String} {r r' : ρ}
      (hvalue : headers.lookup k = some value)
      (hout : renderNullable h (d.view headers {}) value r = (.ok out, r'))
      (hrest : RendersHeaders h d ks (headers.insert k out) final) :
      RendersHeaders h d (k :: ks) headers final

/-- The headers that a hop has received become `headers`. -/
def Delivery.Renders (d : Delivery) (h : Host ρ) (headers : Headers) : Prop :=
  RendersHeaders h d d.requestHeaders.keys d.requestHeaders headers

/-- The answer of a node as the hop before it stores it, with the headers that the node sets. -/
def PowerTraceNode.answered (n : PowerTraceNode) (http : Http) (status : ℤ) (text : String) :
    PowerfulResponse :=
  http.fromHttp status text (httpHeaders (n.responseHeaders.getD ∅))

/-- What a delivered instruction makes of the hops behind it: they are called in turn, and the
delivery is answered with a status and a text.  Each hop renders in the context of its own request,
with its headers rendered, no result of a method, and the response of the next hop; only the delay is
what the clock says. -/
inductive Chain (net : Network ρ) (http : Http) : Delivery → List Visit → ℤ → String → Prop
  /-- A code that is not 200 is answered with the record so far and a message. -/
  | fails {d : Delivery} {node : PowerTraceNode} {rest : List PowerTraceNode} {headers : Headers}
      {r r' : ρ} {own name : String} (hnodes : d.instruction.nodes = node :: rest) (hcode : node.code ≠ 200)
      (hname : (net d.process).host.statusName node.code.toInt = some name)
      (hheaders : d.Renders (net d.process).host headers)
      (hown : render (net d.process).host (d.view headers {}) d.tmpl r = (.ok own, r')) :
      Chain net http d [] node.code.toInt
        ((if rest = [] then own else own ++ " -> ") ++ ": " ++ codeText node.code.toInt name)
  /-- The last node answers with its rendered template. -/
  | ends {d : Delivery} {node : PowerTraceNode} {headers : Headers} {delayMillis : ℚ} {r r' : ρ}
      {own : String} (hnodes : d.instruction.nodes = [node]) (hcode : node.code = 200)
      (hheaders : d.Renders (net d.process).host headers)
      (hown : render (net d.process).host (d.view headers { delayMillis }) d.tmpl r = (.ok own, r')) :
      Chain net http d [] 200 own
  /-- Any other node calls the next one in this context, and answers with its own template, rendered
  with that one's answer, and the text of it. -/
  | calls {d d' : Delivery} {node n : PowerTraceNode} {tail : List PowerTraceNode} {headers : Headers}
      {target : String} {hops : List Visit} {status : ℤ} {delayMillis : ℚ} {r₁ r₂ r₃ r₄ r r' : ρ}
      {text own : String} (hnodes : d.instruction.nodes = node :: n :: tail) (hcode : node.code = 200)
      (hheaders : d.Renders (net d.process).host headers)
      (hcall : renderNullable (net d.process).host (d.view headers {}) n.call r₁ = (.ok (some target), r₂))
      (hsend : (http.protocol (fun p => (net p).host) d.process).send
        (sentTo d.instruction n target tail) (d.view headers {}) r₃ = (.arrived d', r₄))
      (hsent : d'.instruction = { sentTo d.instruction n target tail with caseInfo := none })
      (hnext : Chain net http d' hops status text)
      (hstatus : ∀ r, render (net d.process).host
        (d.view headers ⟨n.answered http status text, none, delayMillis⟩) "{{statusCode()}}" r =
          (.ok (toString status), r))
      (hown : render (net d.process).host (d.view headers ⟨n.answered http status text, none, delayMillis⟩)
        d.tmpl r = (.ok own, r')) :
      Chain net http d (⟨d', status, text⟩ :: hops) 200 (own ++ " -> " ++ text)

/-- The hops are those of the nodes up to the first one whose code is not 200, one for each, and
each answers with the code of its node. -/
def Visits : List PowerTraceNode → List Visit → Prop
  | [], hops => hops = []
  | n :: ns, hops => ∃ hop hops' target, hops = hop :: hops' ∧
      hop.delivery.instruction.nodes = { n with call := some target } :: ns ∧
      hop.status = n.code.toInt ∧ if n.code = 200 then Visits ns hops' else hops' = []

def Event.delivered : Event → Option Delivery
  | .delivery d => some d
  | _ => none

def Event.status : Event → Option String
  | .answer response => response.status
  | _ => none

/-- The traffic of the hops: each is called and reached in this order, and they answer in the
opposite one. -/
structure Traffic (hops : List Visit) (events : List Event) : Prop where
  calls : (events.filterMap Event.sent).map (fun sent => { sent with caseInfo := none }) =
    hops.map fun hop => hop.delivery.instruction
  deliveries : events.filterMap Event.delivered = hops.map Visit.delivery
  answers : events.filterMap Event.status = (hops.map fun hop => toString hop.status).reverse

theorem Traffic.nil : Traffic [] [] := ⟨rfl, rfl, rfl⟩

/-- Around the traffic of a hop stand its call and its answer. -/
theorem Traffic.cons {hops : List Visit} {events : List Event} (h : Traffic hops events) (i : Instruction)
    {sent : Instruction} {d : Delivery} (hd : d.instruction = { sent with caseInfo := none })
    {response : PowerfulResponse} {status : ℤ} (hstatus : response.status = some (toString status))
    (text : String) :
    Traffic (⟨d, status, text⟩ :: hops)
      (.invocation i sent :: .delivery d :: events ++ [.answer response]) := by
  refine ⟨?_, ?_, ?_⟩
  · simp only [List.cons_append, List.filterMap_cons, List.filterMap_append, Event.sent,
      List.filterMap_nil, List.append_nil, List.map_cons, h.calls, hd]
  · simp only [List.cons_append, List.filterMap_cons, List.filterMap_append, Event.delivered,
      List.filterMap_nil, List.append_nil, List.map_cons, h.deliveries]
  · simp only [List.cons_append, List.filterMap_cons, List.filterMap_append, Event.status, hstatus,
      List.filterMap_nil, List.map_cons, List.reverse_cons, h.answers]

/-- A chain visits the nodes behind its first one, if that one has the code 200. -/
theorem Chain.visits {net : Network ρ} {http : Http} {d : Delivery} {hops : List Visit} {status : ℤ}
    {text : String} (h : Chain net http d hops status text) {node : PowerTraceNode} {rest : List PowerTraceNode}
    (hnodes : d.instruction.nodes = node :: rest) :
    status = node.code.toInt ∧ if node.code = 200 then Visits rest hops else hops = [] := by
  induction h generalizing node rest with
  | fails hnodes' hcode =>
      obtain ⟨rfl, -⟩ := List.cons.inj (hnodes'.symm.trans hnodes)
      rw [if_neg hcode]
      exact ⟨rfl, rfl⟩
  | ends hnodes' hcode =>
      obtain ⟨rfl, rfl⟩ := List.cons.inj (hnodes'.symm.trans hnodes)
      rw [if_pos hcode, hcode]
      exact ⟨rfl, rfl⟩
  | @calls d d' first n tail headers target hops status delayMillis r₁ r₂ r₃ r₄ r r' text own hnodes'
      hcode hheaders hcall hsend hsent hnext hstatus hown ih =>
      obtain ⟨rfl, rfl⟩ := List.cons.inj (hnodes'.symm.trans hnodes)
      have hserved : d'.instruction.nodes = { n with call := some target } :: tail := by
        rw [hsent]
        rfl
      obtain ⟨hanswer, hvisits⟩ := ih hserved
      rw [if_pos hcode, hcode]
      exact ⟨rfl, _, hops, target, rfl, hserved, hanswer, hvisits⟩

/-! ### Requests that can be served -/

/-- A node that runs without chance: it fails if and only if its code, a known one, is not 200. -/
structure PlainNode (net : Network ρ) (node : PowerTraceNode) : Prop where
  callTestMethod : node.callTestMethod = some 0
  errorByPercent : node.errorByPercent = some 0
  responseHeaders : node.responseHeaders.isSome
  code : node.code = 200 ∨ (400 ≤ node.code.toInt ∧ node.code.toInt < 600 ∧
    ∀ p, ((net p).host.statusName node.code.toInt).isSome)

/-- The received headers and the template of the records render. -/
structure Renderable (net : Network ρ) (d : Delivery) : Prop where
  headers : ∀ k value v r, d.requestHeaders.lookup k = some value → OfRequest d v →
    returns (renderNullable (net d.process).host v value r).1
  template : ∀ v r, OfRequest d v → returns (render (net d.process).host v d.tmpl r).1

/-- Every target is live: a call renders to one, and the process there gets the instruction as it was
sent, in a request that renders. -/
def Live (net : Network ρ) (http : Http) : List PowerTraceNode → Delivery → Prop
  | [], _ => True
  | n :: tail, d => n.by_ = some "http" ∧ hasDubboPrefix n.call = false ∧
      ∀ v r, OfRequest d v → ∃ target r',
        renderNullable (net d.process).host v n.call r = (.ok (some target), r') ∧ target ≠ "" ∧
          ∀ v' r₁, OfRequest d v' → ∃ d' r₂,
            (http.protocol (fun p => (net p).host) d.process).send
                (sentTo d.instruction n target tail) v' r₁ = (.arrived d', r₂) ∧
              d'.instruction = { sentTo d.instruction n target tail with caseInfo := none } ∧
              Renderable net d' ∧ Live net http tail d'

/-- The processes of the network speak HTTP. -/
def Network.SpeaksHttp (net : Network ρ) (http : Http) : Prop :=
  ∀ p, (net p).protocols "http" = some (http.protocol (fun q => (net q).host) p)

/-! ### One hop, step by step -/

namespace Service

/-- A state of the hop that serves `d`, with its headers, the slot of its thread and the log so far. -/
structure Stands (d : Delivery) (node : PowerTraceNode) (headers : Headers) (ns : List PowerTraceNode)
    (slot : Slot) (log : List Event) (s : St ρ) : Prop where
  begun : Begun d node (fun m => m = headers) (fun ns' => ns' = ns) s
  slot : s.ctx.getResults d.thread = slot
  log : s.world.log = log

variable {svc : Service ρ} {d : Delivery} {node : PowerTraceNode} {headers : Headers}
  {ns : List PowerTraceNode} {slot : Slot} {log : List Event} {s : St ρ}

theorem Stands.view_eq (hs : Stands d node headers ns slot log s) :
    s.ctx.view d.thread = d.view headers slot := by
  obtain ⟨m, hheaders, rfl⟩ := hs.begun.headers
  unfold RenderingContext.view Delivery.view
  rw [hheaders, hs.begun.path, hs.begun.params, hs.slot]

theorem ofRequest_deliveryView (d : Delivery) (headers : Headers) (slot : Slot) :
    OfRequest d (d.view headers slot) := ⟨rfl, rfl, rfl⟩

theorem Stands.withRand (hs : Stands d node headers ns slot log s) (r : ρ) :
    Stands d node headers ns slot log (s.withRand r) :=
  ⟨⟨hs.begun.request, hs.begun.path, hs.begun.params, hs.begun.headers, hs.begun.nodes,
    hs.begun.invokeResult⟩, hs.slot, hs.log⟩

theorem Stands.setSlot (hs : Stands d node headers ns slot log s) (slot' : Slot)
    (hslot : slot'.invokeResult = slot.invokeResult) :
    Stands d node headers ns slot' log (s.withCtx (s.ctx.setSlot d.thread slot')) := by
  refine ⟨⟨hs.begun.request, hs.begun.path, hs.begun.params, hs.begun.headers, hs.begun.nodes,
    fun hcalls => ?_⟩, ?_, hs.log⟩
  · simp only [St.withCtx, RenderingContext.getResults_setSlot, hslot]
    rw [← hs.slot]
    exact hs.begun.invokeResult hcalls
  · simp only [St.withCtx, RenderingContext.getResults_setSlot]

theorem stands_begin (hnodes : d.instruction.nodes = node :: ns) (w : World ρ) (n : ℕ) :
    Stands d node d.requestHeaders ns {} w.log ((d.begin w).perform n) := by
  refine ⟨⟨rfl, rfl, rfl, ⟨d.requestHeaders, rfl, rfl⟩, ⟨node.headers, ns, hnodes, rfl⟩, fun _ => ?_⟩,
    ?_, rfl⟩
  · show ((RenderingContext.new d.thread).getResults d.thread).invokeResult = none
    rw [RenderingContext.getResults_new]
  · show (RenderingContext.new d.thread).getResults d.thread = {}
    rw [RenderingContext.getResults_new]

/-- A received header is rendered in the context of the ones before. -/
theorem renderHeader_stands {k : String} {value : Option String} (hvalue : headers.lookup k = some value)
    (hrender : ∀ r, returns (renderNullable svc.host (d.view headers {}) value r).1)
    (hs : Stands d node headers ns {} log s) :
    ∃ out r' s', renderNullable svc.host (d.view headers {}) value s.world.rand = (.ok out, r') ∧
      (svc.renderHeader d.thread k).run s = (.ok (), s') ∧
      Stands d node (headers.insert k out) ns {} log s' := by
  obtain ⟨m, hheaders, rfl⟩ := hs.begun.headers
  obtain ⟨out, hout⟩ := hrender s.world.rand
  cases hrun : renderNullable svc.host (d.view m {}) value s.world.rand with
  | mk o r' =>
      rw [hrun] at hout
      obtain rfl : o = .ok out := hout
      have hs₁ := hs.withRand r'
      refine ⟨out, r', (s.withRand r').withCtx (s.ctx.putRequestHeader k out), rfl, ?_,
        ⟨hs₁.begun.request, hs₁.begun.path, hs₁.begun.params, ⟨m.insert k out, ?_, rfl⟩, hs₁.begun.nodes,
          hs₁.begun.invokeResult⟩, hs₁.slot, hs₁.log⟩
      · unfold renderHeader
        rw [run_atomic, hheaders, Option.bind_some, hvalue]
        simp only [hs.view_eq, hrun]
      · simp only [St.withCtx, RenderingContext.putRequestHeader, hheaders, Option.map_some]

/-- The received headers are rendered, each one once. -/
theorem renderHeaderList_stands
    (hrender : ∀ k value v r, d.requestHeaders.lookup k = some value → OfRequest d v →
      returns (renderNullable svc.host v value r).1) :
    ∀ (ks : List String) {headers : Headers} {s : St ρ}, ks.Nodup → Stands d node headers ns {} log s →
      (∀ k ∈ ks, (headers.lookup k).isSome ∧ headers.lookup k = d.requestHeaders.lookup k) →
        ∃ final s', RendersHeaders svc.host d ks headers final ∧
          (svc.renderHeaderList d.thread ks).run s = (.ok (), s') ∧ Stands d node final ns {} log s'
  | [], headers, s, _, hs, _ => ⟨headers, s, .done headers, rfl, hs⟩
  | k :: ks, headers, s, hnodup, hs, hkeys => by
      obtain ⟨hk, hnodup⟩ := List.nodup_cons.mp hnodup
      obtain ⟨hsome, hfirst⟩ := hkeys k List.mem_cons_self
      obtain ⟨value, hvalue⟩ := Option.isSome_iff_exists.mp hsome
      obtain ⟨out, r', s₁, hout, hrun, hs₁⟩ := renderHeader_stands hvalue
        (fun r => hrender k value _ r (hfirst ▸ hvalue) (ofRequest_deliveryView d headers {})) hs
      obtain ⟨final, s', hrest, hlist, hs'⟩ := renderHeaderList_stands hrender ks hnodup hs₁ fun l hl => by
        have hne : l ≠ k := fun heq => hk (heq ▸ hl)
        rw [AList.lookup_insert_ne hne]
        exact hkeys l (List.mem_cons_of_mem k hl)
      refine ⟨final, s', .next hvalue hout hrest, ?_, hs'⟩
      show ((svc.renderHeader d.thread k) >>= fun _ => svc.renderHeaderList d.thread ks).run s = _
      rw [run_bind_ok hrun, hlist]

theorem invokeTestMethod_run (first : PowerTraceNode) (h : first.callTestMethod = some 0) (t : ThreadId)
    (s : St ρ) : (svc.invokeTestMethod t first).run s = (.ok (), s) := by
  unfold invokeTestMethod
  rw [h]
  rfl

theorem delay_run (node : PowerTraceNode) (s : St ρ) : (delay node).run s = (.ok (), s) := by
  unfold delay
  split
  · rfl
  · rfl

theorem errorByPercent_run (first : PowerTraceNode) (h : first.errorByPercent = some 0) (s : St ρ) :
    (svc.errorByPercent first).run s = (.ok (), s) := by
  unfold errorByPercent
  rw [h]
  rfl

/-- A hop without chance gets to the code of its node, with its headers rendered. -/
theorem doExecuteSingle_run (svc : Service ρ) (hcalls : node.callTestMethod = some 0)
    (hpercent : node.errorByPercent = some 0)
    (hrender : ∀ k value v r, d.requestHeaders.lookup k = some value → OfRequest d v →
      returns (renderNullable svc.host v value r).1)
    (hs : Stands d node d.requestHeaders ns {} log s) :
    ∃ headers s', d.Renders svc.host headers ∧ Stands d node headers ns {} log s' ∧
      (svc.doExecuteSingle d.instruction d.thread).run s =
        (svc.code node >>= fun _ => svc.call d.instruction d.thread).run s' := by
  obtain ⟨s₁, hpropagate, hworld, hctx, hbegun⟩ := propagateHeaders_run hs.begun d.instruction
  have hs₁ : Stands d node d.requestHeaders ns {} log s₁ :=
    ⟨hbegun, by rw [hctx, hs.slot], by rw [hworld, hs.log]⟩
  obtain ⟨m, hheaders₁, rfl⟩ := hs₁.begun.headers
  obtain ⟨headers, s₂, hrenders, hlist, hs₂⟩ := renderHeaderList_stands hrender d.requestHeaders.keys
    d.requestHeaders.keys_nodup hs₁ fun k hk => ⟨AList.lookup_isSome.mpr hk, rfl⟩
  have hrendered : (svc.renderHeaders d.thread).run s₁ = (.ok (), s₂) := by
    unfold renderHeaders
    rw [run_bind_ok (run_read _ s₁), hheaders₁]
    exact hlist
  obtain ⟨own, ns', hnodes, -⟩ := hs₂.begun.nodes
  refine ⟨headers, s₂, hrenders, hs₂, ?_⟩
  unfold doExecuteSingle
  rw [run_bind_ok hpropagate, run_bind_ok hrendered, run_bind_ok (run_read _ s₂), hnodes, List.head?_cons]
  simp only
  rw [run_bind_ok (invokeTestMethod_run { node with headers := own } hcalls d.thread s₂),
    run_bind_ok (delay_run _ s₂),
    run_bind_ok (errorByPercent_run { node with headers := own } hpercent s₂)]
  rfl

/-- The call of the node behind the first one is rendered to its target. -/
theorem renderCall_run {n : PowerTraceNode} {tail : List PowerTraceNode} {target : String}
    (hs : Stands d node headers (n :: tail) slot log s) {r' : ρ}
    (hcall : renderNullable svc.host (d.view headers slot) n.call s.world.rand = (.ok (some target), r')) :
    ∃ s₁, (svc.renderCall d.thread).run s = (.ok (), s₁) ∧
      Stands d node headers ({ n with call := some target } :: tail) slot log s₁ := by
  obtain ⟨own, ns', hnodes, rfl⟩ := hs.begun.nodes
  refine ⟨(s.withRand r').modifyNext fun node => { node with call := some target }, ?_, ?_⟩
  · unfold renderCall
    rw [run_atomic, nextCall_eq hnodes, hs.view_eq, hcall]
  · refine ⟨⟨hs.begun.request, hs.begun.path, hs.begun.params, hs.begun.headers, ⟨own, _, ?_, rfl⟩,
      hs.begun.invokeResult⟩, hs.slot, hs.log⟩
    simp only [St.modifyNext, St.withRand, hnodes, List.modify_succ_cons, List.modify_zero_cons]

/-- The instruction is sent; only the world changes. -/
theorem invoke_run {n : PowerTraceNode} {tail : List PowerTraceNode} {invoker : RemoteInvoker ρ}
    {target : String} {Q : PowerfulResponse → List Event → List Event → Prop}
    (hs : Stands d node headers ({ n with call := some target } :: tail) slot log s)
    (hinvoker : ∀ w, ∃ response w',
      invoker (sentTo d.instruction n target tail) (d.view headers slot) w = (.ok response, w') ∧
        Q response w.log w'.log) :
    ∃ response w', (invoke d.instruction d.thread invoker).run s = (.ok response, { s with world := w' }) ∧
      Q response (log ++ [.invocation d.instruction (sentTo d.instruction n target tail)]) w'.log := by
  obtain ⟨own, ns', hnodes, rfl⟩ := hs.begun.nodes
  have hnext : next d.instruction s = some (sentTo d.instruction n target tail) := by
    unfold next Instruction.getNext
    simp only [Instruction.nodes, Option.getD_some, hnodes]
    rfl
  have hlog : (s.world.put (.invocation s.request (sentTo d.instruction n target tail))).log =
      log ++ [.invocation d.instruction (sentTo d.instruction n target tail)] := by
    show s.world.log ++ _ = _
    rw [hs.log, hs.begun.request]
  obtain ⟨response, w', hinvoked, hQ⟩ := hinvoker
    (s.world.put (.invocation s.request (sentTo d.instruction n target tail)))
  refine ⟨response, w', ?_, hlog ▸ hQ⟩
  unfold invoke
  rw [run_atomic, hnext]
  simp only [hs.view_eq, hinvoked]

/-- A live call: the node behind the first one is called, and its response is stored. -/
theorem call_run {n : PowerTraceNode} {tail : List PowerTraceNode} {invoker : RemoteInvoker ρ}
    {target : String} {Q : PowerfulResponse → List Event → List Event → Prop}
    (hs : Stands d node headers (n :: tail) slot log s) (hby : n.by_ = some "http")
    (hplain : hasDubboPrefix n.call = false) (htable : svc.invokers "http" = some invoker) {r' : ρ}
    (hcall : renderNullable svc.host (d.view headers slot) n.call s.world.rand = (.ok (some target), r'))
    (htarget : target ≠ "")
    (hinvoker : ∀ w, ∃ response w',
      invoker (sentTo d.instruction n target tail) (d.view headers slot) w = (.ok response, w') ∧
        Q response w.log w'.log) :
    ∃ response log' s', (svc.call d.instruction d.thread).run s = (.ok (some response), s') ∧
      Q response (log ++ [.invocation d.instruction (sentTo d.instruction n target tail)]) log' ∧
      Stands d node headers ({ n with call := some target } :: tail) { slot with response } log' s' := by
  obtain ⟨s₁, hrendered, hs₁⟩ := renderCall_run hs hcall
  obtain ⟨response, w', hinvoked, hQ⟩ := invoke_run hs₁ hinvoker
  have hs₂ : Stands d node headers ({ n with call := some target } :: tail) slot w'.log
      { s₁ with world := w' } :=
    ⟨⟨hs₁.begun.request, hs₁.begun.path, hs₁.begun.params, hs₁.begun.headers, hs₁.begun.nodes,
      hs₁.begun.invokeResult⟩, hs₁.slot, rfl⟩
  refine ⟨response, w'.log, _, ?_, hQ, hs₂.setSlot { slot with response } rfl⟩
  obtain ⟨own, ns', hnodes, rfl⟩ := hs.begun.nodes
  have hchoose : chooseProtocol.run s = (.ok (), s) := by
    unfold chooseProtocol
    rw [run_bind_ok (run_read _ s), nextCall_eq hnodes, hplain]
    rfl
  have htaken : svc.invokerOf.run s = (.ok invoker, s) := by
    unfold invokerOf
    rw [run_atomic, hnodes]
    simp only [List.getElem?_cons_succ, List.getElem?_cons_zero, Option.bind_some, hby, htable]
  have hfull : isEmpty s₁.nextCall = false := by
    obtain ⟨own₁, ns₁, hnodes₁, rfl⟩ := hs₁.begun.nodes
    rw [nextCall_eq hnodes₁]
    simp only [isEmpty, Option.some.injEq, htarget, reduceCtorEq, decide_false, Bool.or_self]
  unfold call
  rw [run_bind_ok (run_read _ s), hnodes]
  simp only [List.getElem?_cons_succ, List.getElem?_cons_zero, Option.isNone_some, Bool.false_eq_true,
    if_false]
  unfold callNext
  rw [run_bind_ok hchoose, run_bind_ok htaken, run_bind_ok hrendered, run_bind_ok (run_read _ s₁), hfull]
  simp only [Bool.false_eq_true, if_false]
  rw [run_bind_ok hinvoked, ← hs₂.slot]
  rfl

/-! ### A single execution -/

/-- A single execution comes to its body as it began, up to draws; then it is concluded, and the
record is rendered. -/
theorem executeSingle_run (svc : Service ρ) (hrr : d.instruction.rr.map AList.entries = some [])
    {source : Option String} (hsource : template d.instruction = .ok source) (s : St ρ) :
    ∃ r requestStarts, ∀ outcome s',
      (svc.doExecuteSingle d.instruction d.thread).run ((s.perform 0).withRand r) = (outcome, s') →
        (svc.executeSingle d.instruction d.thread false 0 0).run s =
          (svc.conclude d.thread false source requestStarts outcome >>= fun own =>
            (.read fun s => (s.ctx.getResults d.thread).delayMillis) >>= fun delayMillis =>
              svc.renderText d.thread source >>= fun renderResult =>
                (.pure ⟨delayMillis, renderResult, own.1, own.2⟩ : Run ρ Result)).run s' := by
  refine ⟨(svc.host.nanoTime s.world.rand).2, (svc.host.nanoTime s.world.rand).1,
    fun outcome s' hbody => ?_⟩
  have hperformed : (Prog.modify fun s : St ρ => s.perform 0 : Run ρ Unit).run s =
      (.ok (), s.perform 0) := rfl
  have hattempt : (svc.executeProcessed d.instruction d.thread 0).attempt.run
      ((s.perform 0).withRand (svc.host.nanoTime s.world.rand).2) = (.ok outcome, s') := by
    rw [run_attempt, executeProcessed_plain hrr, hbody]
  have hturn : (svc.awaitTurn 0).run (s.perform 0) = (.ok (), s.perform 0) := by
    unfold awaitTurn
    rw [if_pos rfl]
    rfl
  have hslept : sleep.run (s.perform 0) = (.ok (), s.perform 0) := rfl
  have hclock : (draw svc.host.nanoTime).run (s.perform 0) =
      (.ok (svc.host.nanoTime s.world.rand).1,
        (s.perform 0).withRand (svc.host.nanoTime s.world.rand).2) := rfl
  unfold executeSingle
  rw [run_bind_ok hperformed]
  unfold executeBody
  rw [run_bind_ok hturn, hsource, ofExcept_bind, run_bind_ok hslept, run_bind_ok hclock,
    run_bind_ok hattempt]
  rfl

theorem storeDelay_run (svc : Service ρ) (hs : Stands d node headers ns slot log s) (requestStarts : ℕ) :
    ∃ delayMillis s', (svc.storeDelay d.thread requestStarts).run s = (.ok delayMillis, s') ∧
      Stands d node headers ns { slot with delayMillis } log s' := by
  have hstored := (hs.withRand (svc.host.nanoTime s.world.rand).2).setSlot { slot with
    delayMillis := (((svc.host.nanoTime s.world.rand).1 : ℚ) - requestStarts) / 1000000 } rfl
  refine ⟨_, _, ?_, hstored⟩
  rw [← hs.slot]
  rfl

/-- The result of an execution that returns is its record. -/
theorem executeOnce_ok {source : Option String} {R : ℚ → Option String → Prop}
    (hrecord : ∀ delayMillis r, ∃ record r',
      renderNullable svc.host (d.view headers { slot with delayMillis }) source r = (.ok record, r') ∧
        R delayMillis record)
    {response? : Option PowerfulResponse} {requestStarts : ℕ} {s₁ : St ρ}
    (hsingle : (svc.executeSingle d.instruction d.thread false 0 0).run s =
      (svc.conclude d.thread false source requestStarts (.ok response?) >>= fun own =>
        (.read fun s => (s.ctx.getResults d.thread).delayMillis) >>= fun delayMillis =>
          svc.renderText d.thread source >>= fun renderResult =>
            (.pure ⟨delayMillis, renderResult, own.1, own.2⟩ : Run ρ Result)).run s₁)
    (hs₁ : Stands d node headers ns slot log s₁) :
    ∃ delayMillis record s', (svc.executeOnce d.instruction d.thread).run s = (.ok (ofString record), s') ∧
      R delayMillis record ∧ Stands d node headers ns
        { slot with delayMillis, response := { slot.response with result := ofString record } } log s' := by
  obtain ⟨delayMillis, s₂, hdelay, hs₂⟩ := storeDelay_run svc hs₁ requestStarts
  have hconclude : (svc.conclude d.thread false source requestStarts (.ok response?)).run s₁ =
      (.ok (response?, delayMillis), s₂) := by
    unfold conclude
    rw [run_bind_ok hdelay]
    rfl
  obtain ⟨record, r', hrendered, hR⟩ := hrecord delayMillis s₂.world.rand
  have htext : (svc.renderText d.thread source).run s₂ = (.ok record, s₂.withRand r') := by
    unfold renderText
    rw [run_atomic, hs₂.view_eq, hrendered]
  rw [run_bind_ok hconclude, run_bind_ok (run_read _ s₂), run_bind_ok htext, run_pure'] at hsingle
  have hstored : (storeResult d.thread (ofString record)).run (s₂.withRand r') = (.ok (),
      (s₂.withRand r').withCtx (s₂.ctx.setSlot d.thread { slot with
        delayMillis, response := { slot.response with result := ofString record } })) := by
    unfold storeResult RenderingContext.setResult RenderingContext.getResult
    rw [run_modify]
    simp only [St.withRand, hs₂.slot]
  have hs₃ := (hs₂.withRand r').setSlot { slot with
    delayMillis, response := { slot.response with result := ofString record } } rfl
  refine ⟨delayMillis, record, _, ?_, hR, hs₃⟩
  unfold executeOnce
  rw [run_bind_ok hsingle, run_bind_ok hstored]
  rfl

/-- An exception of an execution is wrapped behind its record. -/
theorem executeOnce_error {source : Option String} {R : Option String → Prop}
    (hrecord : ∀ r, ∃ record r',
      renderNullable svc.host (d.view headers slot) source r = (.ok record, r') ∧ R record)
    {e : Exc} {requestStarts : ℕ} {s₁ : St ρ}
    (hsingle : (svc.executeSingle d.instruction d.thread false 0 0).run s =
      (svc.conclude d.thread false source requestStarts (.error e) >>= fun own =>
        (.read fun s => (s.ctx.getResults d.thread).delayMillis) >>= fun delayMillis =>
          svc.renderText d.thread source >>= fun renderResult =>
            (.pure ⟨delayMillis, renderResult, own.1, own.2⟩ : Run ρ Result)).run s₁)
    (hs₁ : Stands d node headers ns slot log s₁) :
    ∃ delayMillis record s', (svc.executeOnce d.instruction d.thread).run s = (.error (wrap record e), s') ∧
      R record ∧ Stands d node headers ns { slot with delayMillis } log s' := by
  obtain ⟨record, r', hrendered, hR⟩ := hrecord s₁.world.rand
  have htext : (svc.renderText d.thread source).attempt.run s₁ = (.ok (.ok record), s₁.withRand r') := by
    unfold renderText
    rw [run_attempt, run_atomic, hs₁.view_eq, hrendered]
  obtain ⟨delayMillis, s₂, hdelay, hs₂⟩ := storeDelay_run svc (hs₁.withRand r') requestStarts
  have hconclude : (svc.conclude d.thread false source requestStarts (.error e)).run s₁ =
      (.error (wrap record e), s₂) := by
    unfold conclude
    simp only [Bool.false_eq_true, if_false]
    rw [run_bind_ok htext, run_bind_ok hdelay]
    rfl
  rw [run_bind_error hconclude] at hsingle
  refine ⟨delayMillis, record, s₂, ?_, hR, hs₂⟩
  unfold executeOnce
  rw [run_bind_error hsingle]

/-- The record of a hop: its rendered template, with the body of the last response behind it unless
the hop is the last one. -/
theorem record_renders {host : Host ρ} {v : View} {i : Instruction} {node : PowerTraceNode}
    {rest : List PowerTraceNode} (hnodes : i.nodes = node :: rest)
    (hclosed : unclosed 0 (orNull i.traceNodeTmpl).toList = false) {source : Option String}
    (hsource : template i = .ok source) {r r' : ρ} {own : String}
    (hown : render host v (orNull i.traceNodeTmpl) r = (.ok own, r')) :
    ∃ record r', renderNullable host v source r = (.ok record, r') ∧
      orNull record = (if rest = [] then own else own ++ " -> " ++ resultBodyText host v) ∧
      (rest ≠ [] → record.isSome) := by
  have htrace : i.trace = some (node :: rest) := by
    unfold Instruction.nodes at hnodes
    cases htrace : i.trace with
    | none =>
        rw [htrace] at hnodes
        cases hnodes
    | some trace =>
        rw [htrace] at hnodes
        exact congrArg some hnodes
  unfold template at hsource
  rw [htrace] at hsource
  obtain rfl := Except.ok.inj hsource
  cases rest with
  | nil =>
      simp only [List.length_singleton, Nat.one_lt_ofNat, if_true, ne_eq, not_true_eq_false, false_implies,
        and_true]
      cases htmpl : i.traceNodeTmpl with
      | none =>
          rw [htmpl] at hown
          have hnull : render host v "null" r = (.ok "null", r) := render_literal host v (by decide) r
          obtain ⟨hout, -⟩ := Prod.mk.inj (hown.symm.trans hnull)
          exact ⟨none, r, rfl, (Except.ok.inj hout).symm⟩
      | some text =>
          rw [htmpl] at hown
          exact ⟨some own, r', renderNullable_ok hown, rfl⟩
  | cons n tail =>
      have hlength : ¬ (node :: n :: tail).length < 2 := by simp
      simp only [hlength, if_false, reduceCtorEq]
      have hsuffix := render_append_suffix host v hclosed r
      rw [hown] at hsuffix
      exact ⟨some _, r', renderNullable_ok hsuffix, rfl, fun _ => rfl⟩

end Service

/-! ### The whole chain -/

/-- The status that `{{statusCode()}}` shows. -/
theorem render_statusCode (h : Host ρ) {v : View} {status : String}
    (hstatus : v.slot.response.status = some status) (r : ρ) :
    render h v "{{statusCode()}}" r = (.ok status, r) := by
  have hsegments : segments 0 "{{statusCode()}}".toList = [.expr "statusCode()".toList] := by decide
  have hcall : parseCall "statusCode()".toList = some ("statusCode", "") := by decide
  unfold render
  rw [hsegments]
  simp only [renderSegments, calcExpr, hcall, exprFunc, hstatus, Option.getD_some, String.append_empty,
    appendReplacement_quoteReplacement]

theorem Http.fromHttp_result (http : Http) {status : ℤ} (text : String)
    (headers : List (String × Option String)) (hstatus : status = 200 ∨ (400 ≤ status ∧ status < 600)) :
    (http.fromHttp status text headers).result = .str text ∨
      (text = "" ∧ (http.fromHttp status text headers).result = .null) := by
  unfold fromHttp entityBody
  by_cases htext : text = ""
  · exact Or.inr ⟨htext, if_pos (Or.inl htext)⟩
  · refine Or.inl (if_neg ?_)
    rintro (hempty | hnone)
    · exact htext hempty
    · omega

/-- The answer of a hop shows as the text it was answered with. -/
theorem Http.resultBodyText_fromHttp {http : Http} {status : ℤ} {text : String}
    {headers : List (String × Option String)} (hstatus : status = 200 ∨ (400 ≤ status ∧ status < 600))
    {v : View} (hv : v.slot.response = http.fromHttp status text headers) (h : Host ρ) :
    resultBodyText h v = text := by
  unfold resultBodyText
  rw [hv]
  rcases http.fromHttp_result text headers hstatus with hresult | ⟨rfl, hresult⟩
  · rw [hresult, if_neg (by simp), javaText]
  · rw [hresult, if_pos rfl]

/-- The sender reads what the receiver answers. -/
theorem Http.reply_answer {http : Http} {hosts : ℕ → Host ρ} {p : ℕ} {d : Delivery} {out : Except Exc Json}
    {s : St ρ} {status : ℤ} {text : String} {headers : List (String × Option String)}
    (hanswer : HttpController.answer (hosts d.process) d.thread out s = .ok (status, text, headers)) :
    (http.protocol hosts p).reply d out s = .ok (http.fromHttp status text headers) := by
  unfold protocol
  simp only [hanswer]

/-- A call that arrives gets the answer of its receiver. -/
theorem Network.invoker_arrived {net : Network ρ} {n : ℕ} {protocol : Protocol ρ} {sent : Instruction}
    {v : View} {w : World ρ} {d : Delivery} {r : ρ} {out : Except Exc Json} {s : St ρ}
    {response : PowerfulResponse} (hsend : protocol.send sent v w.rand = (.arrived d, r))
    (hrun : (net.service n d.process).execute d.instruction d.thread
      (d.begin (World.put { w with rand := r } (.delivery d))) = (out, s))
    (hreply : protocol.reply d out s = .ok response) :
    net.invoker (n + 1) protocol sent v w = (.ok response, s.world.put (.answer response)) := by
  have hrun' : ((net d.process).service (net.invoker n)).execute d.instruction d.thread
      (d.begin (World.put { w with rand := r } (.delivery d))) = (out, s) := hrun
  simp only [invoker, hsend, hrun', hreply]

/-- A request that a chain of hops serves: it is executed once, without `rr`, its template closes its
expressions, its nodes run without chance, and it renders and gets to its targets. -/
structure Regular (net : Network ρ) (http : Http) (d : Delivery) (node : PowerTraceNode)
    (rest : List PowerTraceNode) : Prop where
  nodes : d.instruction.nodes = node :: rest
  plain : d.instruction.rr.map AList.entries = some []
  once : d.instruction.times ≤ 1
  closed : unclosed 0 d.tmpl.toList = false
  own : PlainNode net node
  others : ∀ n ∈ rest, PlainNode net n
  renders : Renderable net d
  live : Live net http rest d

/-- A call that arrives is regular in its turn. -/
theorem Regular.next {net : Network ρ} {http : Http} {d d' : Delivery} {node n : PowerTraceNode}
    {tail : List PowerTraceNode} (h : Regular net http d node (n :: tail)) {target : String}
    (hsent : d'.instruction = { sentTo d.instruction n target tail with caseInfo := none })
    (hrenders : Renderable net d') (hlive : Live net http tail d') :
    Regular net http d' { n with call := some target } tail := by
  have hn := h.others n List.mem_cons_self
  refine ⟨?_, ?_, ?_, ?_, ⟨hn.callTestMethod, hn.errorByPercent, hn.responseHeaders, hn.code⟩,
    fun m hm => h.others m (List.mem_cons_of_mem n hm), hrenders, hlive⟩
  · rw [hsent]
    rfl
  · rw [hsent]
    exact h.plain
  · rw [hsent]
    show (1 : Int32) ≤ 1
    decide
  · unfold Delivery.tmpl
    rw [hsent]
    exact h.closed

/-- What a hop leaves: the hops behind it, its answer, and the traffic in the log. -/
def Served (net : Network ρ) (http : Http) (d : Delivery) (node : PowerTraceNode)
    (rest : List PowerTraceNode) (log : List Event) (out : Except Exc Json) (s : St ρ) : Prop :=
  ∃ hops text events, Chain net http d hops node.code.toInt text ∧ Traffic hops events ∧
    s.world.log = log ++ events ∧
    HttpController.answer (net d.process).host d.thread out s =
      .ok (node.code.toInt, text, httpHeaders (node.responseHeaders.getD ∅)) ∧
    (rest ≠ [] → node.code = 200 → out = .ok (.str text))

section
variable {net : Network ρ} {http : Http} {d : Delivery} {node : PowerTraceNode}
  {rest : List PowerTraceNode}

theorem Regular.execute_eq (h : Regular net http d node rest) (n : ℕ) (s : St ρ) :
    (net.service n d.process).execute d.instruction d.thread s =
      ((net.service n d.process).executeOnce d.instruction d.thread).run s := if_pos h.once

/-- A hop comes to the code of its node. -/
theorem Regular.body (h : Regular net http d node rest) (n : ℕ) (w : World ρ) :
    ∃ source requestStarts headers s₁, template d.instruction = .ok source ∧
      d.Renders (net d.process).host headers ∧ Stands d node headers rest {} w.log s₁ ∧ ∀ outcome s₂,
        ((net.service n d.process).code node >>= fun _ =>
            (net.service n d.process).call d.instruction d.thread).run s₁ = (outcome, s₂) →
          ((net.service n d.process).executeSingle d.instruction d.thread false 0 0).run (d.begin w) =
            ((net.service n d.process).conclude d.thread false source requestStarts outcome >>= fun own =>
              (.read fun s => (s.ctx.getResults d.thread).delayMillis) >>= fun delayMillis =>
                (net.service n d.process).renderText d.thread source >>= fun renderResult =>
                  (.pure ⟨delayMillis, renderResult, own.1, own.2⟩ : Run ρ Result)).run s₂ := by
  obtain ⟨source, hsource⟩ : ∃ source, template d.instruction = .ok source := by
    have hnodes := h.nodes
    unfold Instruction.nodes at hnodes
    unfold template
    cases htrace : d.instruction.trace with
    | none =>
        rw [htrace] at hnodes
        cases hnodes
    | some trace => exact ⟨_, rfl⟩
  obtain ⟨r, requestStarts, hsingle⟩ :=
    executeSingle_run (net.service n d.process) h.plain hsource (d.begin w)
  obtain ⟨headers, s₁, hrenders, hs₁, hbody⟩ := doExecuteSingle_run (net.service n d.process)
    h.own.callTestMethod h.own.errorByPercent h.renders.headers ((stands_begin h.nodes w 0).withRand r)
  refine ⟨source, requestStarts, headers, s₁, hsource, hrenders, hs₁, fun outcome s₂ hrun => ?_⟩
  exact hsingle outcome s₂ (hbody.trans hrun)

/-- The record of a hop, rendered in the context `v`, with its own part `own`. -/
def IsRecord (host : Host ρ) (d : Delivery) (rest : List PowerTraceNode) (v : View) (own : String)
    (record : Option String) : Prop :=
  (∃ r r', render host v d.tmpl r = (.ok own, r')) ∧
    orNull record = (if rest = [] then own else own ++ " -> " ++ resultBodyText host v) ∧
    (rest ≠ [] → record.isSome)

/-- The record of a regular hop renders. -/
theorem Regular.record (h : Regular net http d node rest) {source : Option String}
    (hsource : template d.instruction = .ok source) (headers : Headers) (slot : Slot) (r : ρ) :
    ∃ record r', renderNullable (net d.process).host (d.view headers slot) source r = (.ok record, r') ∧
      ∃ own, IsRecord (net d.process).host d rest (d.view headers slot) own record := by
  obtain ⟨own, hown⟩ := h.renders.template _ r (ofRequest_deliveryView d headers slot)
  cases hrender : render (net d.process).host (d.view headers slot) d.tmpl r with
  | mk out r₁ =>
      rw [hrender] at hown
      obtain rfl : out = .ok own := hown
      obtain ⟨record, r', hrecord, htext, hsome⟩ := record_renders h.nodes h.closed hsource hrender
      exact ⟨record, r', hrecord, own, ⟨r, r₁, hrender⟩, htext, hsome⟩

/-- The answer of a hop that returns. -/
theorem answer_ok (host : Host ρ) {headers : Headers} {ns : List PowerTraceNode} {slot : Slot}
    {log : List Event} {s : St ρ} (hs : Stands d node headers ns slot log s) (hnode : PlainNode net node)
    (result : Json) : HttpController.answer host d.thread (.ok result) s =
      .ok (200, javaText host slot.response.result, httpHeaders (node.responseHeaders.getD ∅)) := by
  obtain ⟨own, ns', hnodes, -⟩ := hs.begun.nodes
  obtain ⟨fields, hfields⟩ := Option.isSome_iff_exists.mp hnode.responseHeaders
  have hresponse : s.ctx.getResult d.thread = slot.response := congrArg Slot.response hs.slot
  unfold HttpController.answer
  rw [hnodes, List.head?_cons, Option.bind_some, hfields, hresponse]
  rfl

/-- The answer of a hop that fails. -/
theorem answer_error (host : Host ρ) {headers : Headers} {ns : List PowerTraceNode} {slot : Slot}
    {log : List Event} {s : St ρ} (hs : Stands d node headers ns slot log s) (hnode : PlainNode net node)
    (record : Option String) (code : ℤ) (name : String) :
    HttpController.answer host d.thread (.error (wrap record (.statusCode code name))) s =
      .ok (code, orNull record ++ ": " ++ codeText code name,
        httpHeaders (node.responseHeaders.getD ∅)) := by
  obtain ⟨own, ns', hnodes, -⟩ := hs.begun.nodes
  obtain ⟨fields, hfields⟩ := Option.isSome_iff_exists.mp hnode.responseHeaders
  unfold HttpController.answer
  rw [hnodes, List.head?_cons, Option.bind_some, hfields]
  rfl

/-- A node whose code is not 200 answers with that code. -/
theorem Regular.served_fails (h : Regular net http d node rest) (hcode : node.code ≠ 200) (n : ℕ)
    (w : World ρ) : ∃ out s, (net.service n d.process).execute d.instruction d.thread (d.begin w) = (out, s) ∧
      Served net http d node rest w.log out s := by
  obtain ⟨source, requestStarts, headers, s₁, hsource, hrenders, hs₁, hsingle⟩ := h.body n w
  obtain ⟨-, -, hknown⟩ := h.own.code.resolve_left hcode
  obtain ⟨name, hname⟩ := Option.isSome_iff_exists.mp (hknown d.process)
  have hname' : (net.service n d.process).host.statusName node.code.toInt = some name := hname
  have hthrown : ((net.service n d.process).code node).run s₁ =
      (.error (.statusCode node.code.toInt name), s₁) := by
    unfold code
    rw [if_neg hcode, hname']
    rfl
  obtain ⟨delayMillis, record, s₂, hrun, ⟨own, ⟨r, r₁, hown⟩, hrecord, -⟩, hs₂⟩ := executeOnce_error
    (h.record hsource headers {}) (hsingle _ _ (run_bind_error hthrown)) hs₁
  have hempty : resultBodyText (net d.process).host (d.view headers {}) = "" := rfl
  rw [hempty, String.append_empty] at hrecord
  refine ⟨_, s₂, (h.execute_eq n _).trans hrun, [], _, [],
    .fails h.nodes hcode hname hrenders hown, .nil, ?_, ?_, fun _ h200 => absurd h200 hcode⟩
  · rw [hs₂.log, List.append_nil]
  · rw [answer_error (net d.process).host hs₂ h.own, hrecord]

/-- The last node answers with its rendered template. -/
theorem Regular.served_ends (h : Regular net http d node []) (hcode : node.code = 200) (n : ℕ)
    (w : World ρ) : ∃ out s, (net.service n d.process).execute d.instruction d.thread (d.begin w) = (out, s) ∧
      Served net http d node [] w.log out s := by
  obtain ⟨source, requestStarts, headers, s₁, hsource, hrenders, hs₁, hsingle⟩ := h.body n w
  have hpassed : ((net.service n d.process).code node).run s₁ = (.ok (), s₁) := by
    unfold code
    rw [if_pos hcode]
    rfl
  have hlast : ((net.service n d.process).call d.instruction d.thread).run s₁ = (.ok none, s₁) := by
    obtain ⟨own, ns', hnodes, rfl⟩ := hs₁.begun.nodes
    unfold call
    rw [run_bind_ok (run_read _ s₁), hnodes]
    rfl
  obtain ⟨delayMillis, record, s₂, hrun, ⟨own, ⟨r, r₁, hown⟩, hrecord, -⟩, hs₂⟩ := executeOnce_ok
    (fun delayMillis => h.record hsource headers { delayMillis })
    (hsingle _ _ ((run_bind_ok hpassed).trans hlast)) hs₁
  rw [if_pos rfl] at hrecord
  have htext : javaText (net d.process).host (ofString record) = own := by
    rw [← hrecord]
    cases record <;> rfl
  refine ⟨_, s₂, (h.execute_eq n _).trans hrun, [], own, [], ?_, .nil, ?_, ?_,
    fun hne => absurd rfl hne⟩
  · rw [hcode]
    exact .ends h.nodes hcode hrenders hown
  · rw [hs₂.log, List.append_nil]
  · rw [answer_ok (net d.process).host hs₂ h.own, hcode]
    exact congrArg (fun text => Except.ok ((200 : ℤ), text, _)) htext

/-- What a remote call from the context `v` brings back: the answer of a hop, and its traffic in the
log. -/
def Brings (net : Network ρ) (http : Http) (d : Delivery) (v : View) (sent : Instruction)
    (n : PowerTraceNode) (response : PowerfulResponse) (log log' : List Event) : Prop :=
  ∃ d' r r' hops text events,
    (http.protocol (fun p => (net p).host) d.process).send sent v r = (.arrived d', r') ∧
    d'.instruction = { sent with caseInfo := none } ∧
    Chain net http d' hops n.code.toInt text ∧ Traffic hops events ∧
    response = n.answered http n.code.toInt text ∧
    log' = log ++ (.delivery d' :: events ++ [.answer response])

/-- A call that arrives is served by the hops behind it, and brings their answer back. -/
theorem Regular.brings {m : PowerTraceNode} {tail : List PowerTraceNode}
    (h : Regular net http d node (m :: tail)) {n : ℕ} {target : String} {v : View}
    (hserved : ∀ {d' m'}, Regular net http d' m' tail → ∀ w : World ρ, ∃ out s,
      (net.service n d'.process).execute d'.instruction d'.thread (d'.begin w) = (out, s) ∧
        Served net http d' m' tail w.log out s)
    (harrives : ∀ r, ∃ d' r', (http.protocol (fun q => (net q).host) d.process).send
      (sentTo d.instruction m target tail) v r = (.arrived d', r') ∧
      d'.instruction = { sentTo d.instruction m target tail with caseInfo := none } ∧
      Renderable net d' ∧ Live net http tail d') (w : World ρ) :
    ∃ response w', net.invoker (n + 1) (http.protocol (fun q => (net q).host) d.process)
        (sentTo d.instruction m target tail) v w = (.ok response, w') ∧
      Brings net http d v (sentTo d.instruction m target tail) m response w.log w'.log := by
  obtain ⟨d', r', hsend, hsent, hrenders, hnext⟩ := harrives w.rand
  obtain ⟨out, s, hrun, hops, text, events, hchain, htraffic, hlog, hanswer, -⟩ :=
    hserved (h.next hsent hrenders hnext) (World.put { w with rand := r' } (.delivery d'))
  have hreply : (http.protocol (fun q => (net q).host) d.process).reply d' out s =
      .ok (m.answered http m.code.toInt text) := Http.reply_answer hanswer
  refine ⟨_, _, Network.invoker_arrived hsend hrun hreply, d', w.rand, r', hops, text, events, hsend,
    hsent, hchain, htraffic, rfl, ?_⟩
  show s.world.log ++ _ = _
  rw [hlog]
  simp [World.put]

/-- A node with the code 200 calls the next one, and answers with what that one answers behind its
own template. -/
theorem Regular.served_calls (hnet : net.SpeaksHttp http) {m : PowerTraceNode} {tail : List PowerTraceNode}
    (h : Regular net http d node (m :: tail)) (hcode : node.code = 200) {n : ℕ}
    (hserved : ∀ {d' m'}, Regular net http d' m' tail → ∀ w : World ρ, ∃ out s,
      (net.service n d'.process).execute d'.instruction d'.thread (d'.begin w) = (out, s) ∧
        Served net http d' m' tail w.log out s) (w : World ρ) :
    ∃ out s, (net.service (n + 1) d.process).execute d.instruction d.thread (d.begin w) = (out, s) ∧
      Served net http d node (m :: tail) w.log out s := by
  obtain ⟨source, requestStarts, headers, s₁, hsource, hrenders, hs₁, hsingle⟩ := h.body (n + 1) w
  obtain ⟨hby, hplain, hlive⟩ := h.live
  obtain ⟨target, r', hcall, htarget, harrives⟩ :=
    hlive (d.view headers {}) s₁.world.rand (ofRequest_deliveryView d headers {})
  have hm := h.others m List.mem_cons_self
  have htable : (net.service (n + 1) d.process).invokers "http" =
      some (net.invoker (n + 1) (http.protocol (fun q => (net q).host) d.process)) := by
    show ((net d.process).protocols "http").map _ = _
    rw [hnet d.process]
    rfl
  have hinvoker := h.brings hserved fun r => harrives (d.view headers {}) r
    (ofRequest_deliveryView d headers {})
  have hpassed : ((net.service (n + 1) d.process).code node).run s₁ = (.ok (), s₁) := by
    unfold code
    rw [if_pos hcode]
    rfl
  obtain ⟨response, log', s₂, hcalled, hbrings, hs₂⟩ :=
    call_run hs₁ hby hplain htable hcall htarget hinvoker
  obtain ⟨d', r₃, r₄, hops, text, events, hsend, hsent, hchain, htraffic, rfl, rfl⟩ := hbrings
  obtain ⟨delayMillis, record, s₃, hrun, ⟨own, ⟨r, r₁, hown⟩, hrecord, hsome⟩, hs₃⟩ := executeOnce_ok
    (fun delayMillis => h.record hsource headers ⟨m.answered http m.code.toInt text, none, delayMillis⟩)
    (hsingle _ _ ((run_bind_ok hpassed).trans hcalled)) hs₂
  obtain ⟨record, rfl⟩ := Option.isSome_iff_exists.mp (hsome (List.cons_ne_nil m tail))
  have hknown : m.code.toInt = 200 ∨ (400 ≤ m.code.toInt ∧ m.code.toInt < 600) := by
    rcases hm.code with h200 | ⟨hlow, hhigh, -⟩
    · exact Or.inl (by rw [h200]; rfl)
    · exact Or.inr ⟨hlow, hhigh⟩
  rw [if_neg (List.cons_ne_nil m tail), Http.resultBodyText_fromHttp hknown rfl] at hrecord
  obtain rfl : record = own ++ " -> " ++ text := hrecord
  have hstatus : (m.answered http m.code.toInt text).status = some (toString m.code.toInt) := rfl
  refine ⟨_, s₃, (h.execute_eq (n + 1) _).trans hrun, _, _, _, ?_,
    htraffic.cons d.instruction hsent hstatus text, ?_, ?_, fun _ _ => rfl⟩
  · rw [hcode]
    exact .calls h.nodes hcode hrenders hcall hsend hsent hchain
      (render_statusCode (net d.process).host hstatus) hown
  · rw [hs₃.log]
    simp
  · rw [answer_ok (net d.process).host hs₃ h.own, hcode]
    rfl

/-- **Chains**: in a network that speaks HTTP a regular request is served by a chain of hops. -/
theorem execute_served (hnet : net.SpeaksHttp http) :
    ∀ (rest : List PowerTraceNode) {n : ℕ} {d : Delivery} {node : PowerTraceNode}, rest.length ≤ n →
      Regular net http d node rest → ∀ w : World ρ, ∃ out s,
        (net.service n d.process).execute d.instruction d.thread (d.begin w) = (out, s) ∧
          Served net http d node rest w.log out s
  | [], n, d, node, _, h, w => by
      by_cases hcode : node.code = 200
      · exact h.served_ends hcode n w
      · exact h.served_fails hcode n w
  | m :: tail, 0, d, node, hn, h, w => by simp at hn
  | m :: tail, n + 1, d, node, hn, h, w => by
      by_cases hcode : node.code = 200
      · refine h.served_calls hnet hcode (fun h' w' => execute_served hnet tail ?_ h' w') w
        rw [List.length_cons] at hn
        omega
      · exact h.served_fails hcode (n + 1) w

end

/-! ### Cases -/

/-- An HTTP layer in which every request reaches a second process with the headers it was sent with. -/
def Http.echo : Http :=
  { Http.sample with
    arrive := fun req => .ok ⟨1, 0, (req.headers.map fun f => ⟨f.1, f.2⟩).toAList, "/execute", ∅⟩ }

namespace RequestCaseApiController

/-- The case as a request to its own process. -/
def delivery (api : RequestCaseApiController ρ) (p : ℕ) (instruction : Instruction) (params : Headers) :
    Delivery where
  process := p
  thread := api.thread
  instruction := instruction
  requestHeaders := ∅
  path := ""
  params := params
  method := ""

/-- **Execution of a case**: a regular case calls every node of its trace up to the first one whose
code is not 200, once and in this order; each answers with its own code, and the result is the
rendered template with the text of the first node behind it. -/
theorem execute_chain {net : Network ρ} {http : Http} (hnet : net.SpeaksHttp http)
    (api : RequestCaseApiController ρ) {n p : ℕ} (hapi : api.powerful = net.service n p)
    {requestCase : Option Instruction} {instruction : Instruction}
    (hprepare : api.prepare requestCase = .ok instruction) (params : Headers)
    {nodes : List PowerTraceNode} (hne : nodes ≠ []) (hdepth : nodes.length ≤ n)
    (hregular : Regular net http (api.delivery p instruction params) {} nodes) (validate : Bool)
    (w : World ρ) :
    ∃ hops text events, Visits nodes hops ∧
      Chain net http (api.delivery p instruction params) hops 200 text ∧ Traffic hops events ∧
      (api.execute requestCase params validate w).2.log = w.log ++ events ∧
      (api.execute requestCase params validate w).1 =
        if validate then (CaseValidator.validate api.powerful.host api.lib
          ((instruction.caseInfo.map CaseInfo.expect).getD .null) (.str text)).map fun passed =>
            (.str text, some passed)
        else .ok (.str text, none) := by
  obtain ⟨out, s, hrun, hops, text, events, hchain, htraffic, hlog, -, hout⟩ :=
    execute_served hnet nodes hdepth hregular w
  have hexecuted : api.powerful.execute instruction api.thread (api.begin instruction params w) =
      (.ok (.str text), s) := by
    rw [hapi, ← hout hne rfl]
    exact hrun
  refine ⟨hops, text, events, (hchain.visits hregular.nodes).2, hchain, htraffic, ?_, ?_⟩
  · unfold execute
    rw [hprepare]
    simp only [hexecuted]
    split
    · split
      · exact hlog
      · exact hlog
    · exact hlog
  · unfold execute
    rw [hprepare]
    simp only [hexecuted]
    cases validate with
    | true =>
        simp only [if_true]
        cases CaseValidator.validate api.powerful.host api.lib
            ((instruction.caseInfo.map CaseInfo.expect).getD .null) (.str text) with
        | ok passed => rfl
        | error e => rfl
    | false => rfl

/-! ### Cases that are regular, and cases that are not -/

/-- A case with one node. -/
def chainCase (tmpl : String) (node : PowerTraceNode) : Instruction where
  trace := some [node]
  collectBy := some "list"
  traceNodeTmpl := some tmpl
  log := false
  caseInfo := some {}

/-- A controller of a process that speaks HTTP, with calls followed twice. -/
def chainApi (http : Http) : RequestCaseApiController Unit where
  staticResources := { rawCaseSets := some [], targetMapping := [] }
  powerful := (Http.processes http).service 2 0
  lib := { «matches» := fun _ _ => none, replaceAll := fun _ _ s => .ok s, parseDouble := fun _ => none }
  text := { write := fun _ => "", read := fun _ => none }
  raw := fun _ => ""

/-- The node that answers with 404. -/
def missingNode : PowerTraceNode := { call := some "b", code := 404 }

theorem renders_ok {d : Delivery} (hheaders : d.requestHeaders = ∅) (htmpl : d.tmpl = "ok") :
    Renderable (Http.processes Http.sample) d := by
  refine ⟨fun k value v r hvalue _ => ?_, fun v r _ => ?_⟩
  · rw [hheaders] at hvalue
    cases hvalue
  · rw [htmpl, render_literal _ v (by decide) r]
    exact ⟨_, rfl⟩

/-- A node that calls on, and behind it the one that answers with 404. -/
def passingCase : Instruction :=
  { chainCase "ok" missingNode with trace := some [{ call := some "b" }, missingNode] }

theorem regular_sample : Regular (Http.processes Http.sample) Http.sample
    ((chainApi Http.sample).delivery 0 { passingCase with trace := some ({} :: passingCase.nodes) } ∅) {}
    passingCase.nodes := by
  refine ⟨rfl, rfl, by decide, by decide, ⟨rfl, rfl, rfl, Or.inl rfl⟩, ?_, renders_ok rfl rfl,
    rfl, rfl, fun v r _ => ⟨"b", r, ?_, by decide, fun v' r₁ _ => ⟨_, r₁, rfl, ?_, ?_,
      rfl, rfl, fun v r _ => ⟨"b", r, ?_, by decide, fun v' r₁ _ => ⟨_, r₁, rfl, ?_, ?_, trivial⟩⟩⟩⟩⟩
  · refine List.forall_mem_cons.mpr ⟨⟨rfl, rfl, rfl, Or.inl rfl⟩, List.forall_mem_singleton.mpr ?_⟩
    exact ⟨rfl, rfl, rfl, Or.inr ⟨by decide, by decide, fun _ => rfl⟩⟩
  · exact renderNullable_ok (render_literal _ v (by decide) r)
  · rfl
  · exact renders_ok rfl rfl
  · exact renderNullable_ok (render_literal _ v (by decide) r)
  · rfl
  · exact renders_ok rfl rfl

theorem execute_chain_sample : ∃ hops text events, Visits passingCase.nodes hops ∧
    Chain (Http.processes Http.sample) Http.sample ((chainApi Http.sample).delivery 0
      { passingCase with trace := some ({} :: passingCase.nodes) } ∅) hops 200 text ∧
    Traffic hops events ∧
    ((chainApi Http.sample).execute (some passingCase) ∅ false { rand := () }).2.log = [] ++ events ∧
    ((chainApi Http.sample).execute (some passingCase) ∅ false { rand := () }).1 =
      .ok (.str text, none) :=
  execute_chain (fun _ => rfl) (chainApi Http.sample) (n := 2) rfl
    (show (chainApi Http.sample).prepare (some passingCase) = .ok
      { passingCase with trace := some ({} :: passingCase.nodes) } from rfl)
    ∅ (List.cons_ne_nil _ _) (by decide) regular_sample false { rand := () }

/-- The text that a case with one node returns. -/
def resultText (tmpl : String) (node : PowerTraceNode) : Option String :=
  ((chainApi Http.echo).execute (some (chainCase tmpl node)) ∅ false { rand := () }).1.toOption.map
    fun outcome => javaText Host.bare outcome.1

/-- The statuses that are answered meanwhile. -/
def statuses (tmpl : String) (node : PowerTraceNode) : List String :=
  ((chainApi Http.echo).execute (some (chainCase tmpl node)) ∅ false { rand := () }).2.log.filterMap
    Event.status

/-- A node whose header is no expression. -/
def redNode : PowerTraceNode :=
  { call := some "b"
    headers := some (AList.singleton "color" (some "\x7b\x7bred\x7d\x7d")) }

/-- A node with code 200 is called and answered, but a template that opens braces does not render
with the answer behind it, a header that is no expression is answered with 500, and a method that is
none of the four is not called at all. -/
theorem chain_breaks :
    resultText "ok" { call := some "b" } = some "ok -> ok" ∧
    statuses "ok" { call := some "b" } = ["200"] ∧
    (∀ v, render Host.bare v "\x7b\x7b" () = (.ok "\x7b\x7b", ())) ∧
    resultText "\x7b\x7b" { call := some "b" } = none ∧
    statuses "ok" redNode = ["500"] ∧
    resultText "ok" { call := some "b", method := some "PATCH" } = none ∧
    statuses "ok" { call := some "b", method := some "PATCH" } = [] := by
  refine ⟨by decide +kernel, by decide +kernel, fun v => render_literal _ v (by decide) (), by decide +kernel,
    by decide +kernel, by decide +kernel, by decide +kernel⟩

end RequestCaseApiController

end Powerful
