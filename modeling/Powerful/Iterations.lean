import Mathlib
import Powerful.TwoRuns
import Powerful.Amplification

/-! # Independent iterations

All iterations of a request share its context and its nodes.  An iteration renders the request
headers and the call of the next node in place, and leaves its last response behind.  So the next
one renders what has been rendered before, and a text that shows the last response is rendered
before there is a new one.

`Steady` is the condition on a request under which no iteration sees what the ones before it have
done.  `iteration_independent` says that then an iteration does what the first one of a new run
does: it has the same result, and leaves the same world. -/

namespace Powerful

open Resumption Prog

variable {ρ : Type}

/-! ### What rendering sees -/

/-- Two views with the same request, apart from the order of its headers, and the same result of
the called method. -/
structure View.SameRequest (v v' : View) : Prop where
  present : v.requestHeaders.isSome = v'.requestHeaders.isSome
  headers : ∀ k, v.requestHeaders.bind (AList.lookup k) = v'.requestHeaders.bind (AList.lookup k)
  path : v.path = v'.path
  params : v.params = v'.params
  invokeResult : v.slot.invokeResult = v'.slot.invokeResult

theorem headerText_sameRequest {v v' : View} (hv : v.SameRequest v')
    (hresponse : v.slot.response = v'.slot.response) (name : String) :
    headerText v name = headerText v' name := by
  have hpresent := hv.present
  have hlookup := hv.headers name
  unfold headerText
  cases hheaders : v.requestHeaders with
  | none =>
      rw [hheaders, Option.isSome_none] at hpresent
      have hheaders' : v'.requestHeaders = none := Option.not_isSome_iff_eq_none.mp (by simp [← hpresent])
      rw [hheaders']
  | some headers =>
      rw [hheaders] at hpresent hlookup
      obtain ⟨headers', hheaders'⟩ := Option.isSome_iff_exists.mp hpresent.symm
      rw [hheaders'] at hlookup ⊢
      simp only [Option.bind_some] at hlookup
      simp only [hlookup, hresponse]

/-- Rendering does not see the order of the headers. -/
theorem renderNullable_sameRequest {h : Host ρ} {v v' : View} (hv : v.SameRequest v')
    (hresponse : v.slot.response = v'.slot.response)
    (hdelay : v.slot.delayMillis = v'.slot.delayMillis) (source : Option String) (r : ρ) :
    renderNullable h v source r = renderNullable h v' source r := by
  have hfunc : exprFunc h v = exprFunc h v' := by
    funext name
    unfold exprFunc
    simp only [headerText_sameRequest hv hresponse, hv.path, hv.params, hv.invokeResult, hresponse,
      hdelay]
  have hcalc : calcExpr h v = calcExpr h v' := by
    funext expr r
    unfold calcExpr
    rw [hfunc]
  have hsegments : ∀ (ss : List Segment) r, renderSegments h v ss r = renderSegments h v' ss r := by
    intro ss
    induction ss with
    | nil => exact fun _ => rfl
    | cons segment ss ih =>
        intro r
        cases segment with
        | literal c => simp only [renderSegments, ih]
        | expr e => simp only [renderSegments, hcalc, ih]
  cases source with
  | none => rfl
  | some text => simp only [renderNullable, render, hsegments]

namespace Service

/-! ### The called node -/

/-- The text that is rendered to the call of a node, and the protocol of the call. -/
def callText (n : PowerTraceNode) : Option String :=
  if hasDubboPrefix n.call then n.call.map (substring · 8) else n.call

def callBy (n : PowerTraceNode) : Option String :=
  if hasDubboPrefix n.call then some "dubbo" else n.by_

/-- The node with its protocol chosen. -/
def chosen (n : PowerTraceNode) : PowerTraceNode := { n with call := callText n, by_ := callBy n }

/-- The node with its call rendered, too. -/
def settled (call : Option String) (n : PowerTraceNode) : PowerTraceNode :=
  { n with call := call, by_ := callBy n }

theorem chosen_eq_self {n : PowerTraceNode} (h : hasDubboPrefix n.call = false) : chosen n = n := by
  unfold chosen callText callBy
  simp only [h, Bool.false_eq_true, if_false]

theorem chosen_eq_stripped {n : PowerTraceNode} {c : String} (h : hasDubboPrefix n.call = true)
    (hc : n.call = some c) : chosen n = { n with call := some (substring c 8), by_ := some "dubbo" } := by
  unfold chosen callText callBy
  rw [if_pos h, if_pos h, hc]
  rfl

theorem callBy_of_plain {n : PowerTraceNode} (h : hasDubboPrefix n.call = false) : callBy n = n.by_ := by
  unfold callBy
  simp only [h, Bool.false_eq_true, if_false]

theorem callText_of_plain {n : PowerTraceNode} (h : hasDubboPrefix n.call = false) : callText n = n.call := by
  unfold callText
  simp only [h, Bool.false_eq_true, if_false]

theorem length_of_hasDubboPrefix {c : String} (h : hasDubboPrefix (some c) = true) : 8 ≤ c.length := by
  have hprefix : dubboPrefix.toList <+: c.toList := List.isPrefixOf_iff_prefix.mp h
  have hlength := hprefix.length_le
  rw [String.length_toList] at hlength
  exact hlength

/-! ### Steady requests -/

/-- Rendered in a context with `P`, the text becomes `out`, without a draw. -/
def RendersTo (h : Host ρ) (P : View → Prop) (source out : Option String) : Prop :=
  ∀ v r, P v → renderNullable h v source r = (.ok out, r)

/-- What becomes `out` stays `out`. -/
def Settles (h : Host ρ) (P : View → Prop) (source out : Option String) : Prop :=
  RendersTo h P source out ∧ RendersTo h P out out

/-- A context of the request, with headers or with these headers. -/
def OfRequest (d : Delivery) (v : View) : Prop :=
  v.path = d.path ∧ v.params = d.params ∧ v.requestHeaders.isSome

def WithHeaders (d : Delivery) (headers : Headers) (v : View) : Prop :=
  OfRequest d v ∧ ∀ k, v.requestHeaders.bind (AList.lookup k) = headers.lookup k

/-- The node is worked through without an exception up to the call of a node whose protocol is
known. -/
def Reaches (svc : Service ρ) (node : PowerTraceNode) (rest : List PowerTraceNode) : Prop :=
  node.code = 200 ∧ ∃ n, rest.head? = some n ∧ ((callBy n).bind svc.invokers).isSome

/-- The instruction that is sent, with the call rendered to `call`. -/
def sentNext (i : Instruction) (rest : List PowerTraceNode) (call : Option String) : Instruction :=
  { i with trace := some (rest.modify 0 (settled call)), times := 1, threads := 1, qps := 0 }

/-- A request whose iterations see nothing of the ones before them: its headers and the call of the
next node settle, to `headers` and `call`, and the invoker sees only the request and what the
called method has returned. -/
structure Steady (svc : Service ρ) (d : Delivery) (node : PowerTraceNode) (rest : List PowerTraceNode)
    (headers : Headers) (call : Option String) : Prop where
  plain : d.instruction.rr.map AList.entries = some []
  nodes : d.instruction.nodes = node :: rest
  names : ∀ k, k ∉ d.requestHeaders → k ∉ headers
  rendered : ∀ k value, d.requestHeaders.lookup k = some value → ∃ out, headers.lookup k = some out ∧
    Settles svc.host (OfRequest d) value out
  once : ∀ n, rest.head? = some n → hasDubboPrefix (callText n) = false
  settles : ∀ n, rest.head? = some n → svc.Reaches node rest →
    Settles svc.host (WithHeaders d headers) (callText n) call ∧ hasDubboPrefix call = false
  invoker : ∀ n invoker, rest.head? = some n → (callBy n).bind svc.invokers = some invoker →
    isEmpty call = false → ∀ v v' w, v.SameRequest v' →
      invoker (sentNext d.instruction rest call) v w = invoker (sentNext d.instruction rest call) v' w

/-- The received headers settle, to `headers`. -/
structure HeadersSettle (svc : Service ρ) (d : Delivery) (headers : Headers) : Prop where
  names : ∀ k, k ∉ d.requestHeaders → k ∉ headers
  rendered : ∀ k value, d.requestHeaders.lookup k = some value → ∃ out, headers.lookup k = some out ∧
    Settles svc.host (OfRequest d) value out

theorem Steady.headersSettle {svc : Service ρ} {d : Delivery} {node : PowerTraceNode}
    {rest : List PowerTraceNode} {headers : Headers} {call : Option String}
    (h : Steady svc d node rest headers call) : HeadersSettle svc d headers :=
  ⟨h.names, h.rendered⟩

/-! ### States of a run -/

/-- The called method is one that is there. -/
def CallsMethod (node : PowerTraceNode) : Prop :=
  ∃ n, node.callTestMethod = some n ∧ n ≠ 0 ∧ ¬ (100 < n ∨ n < 0)

section
variable (svc : Service ρ) (d : Delivery) (node : PowerTraceNode) (rest : List PowerTraceNode)
  (headers : Headers) (call : Option String)

/-- Some of the headers are rendered. -/
def Mixed (m : Headers) : Prop :=
  ∀ k, m.lookup k = d.requestHeaders.lookup k ∨ m.lookup k = headers.lookup k

/-- All headers are rendered. -/
def AllRendered (m : Headers) : Prop := ∀ k, m.lookup k = headers.lookup k

/-- The nodes behind the first one, with the protocol chosen; the call is rendered if it is
reached. -/
def Chosen (ns : List PowerTraceNode) : Prop :=
  ns = rest.modify 0 chosen ∨ (svc.Reaches node rest ∧ ns = rest.modify 0 (settled call))

/-- The nodes behind the first one, at any time. -/
def Worked (ns : List PowerTraceNode) : Prop := ns = rest ∨ Chosen svc node rest call ns

/-- A state of a run, with headers in `M` and called nodes in `N`. -/
structure Begun (M : Headers → Prop) (N : List PowerTraceNode → Prop) (s : St ρ) : Prop where
  request : s.request = d.instruction
  path : s.ctx.path = d.path
  params : s.ctx.params = d.params
  headers : ∃ m, s.ctx.requestHeaders = some m ∧ M m
  nodes : ∃ own ns, s.nodes = { node with headers := own } :: ns ∧ N ns
  invokeResult : ¬ CallsMethod node → (s.ctx.getResults d.thread).invokeResult = none

/-- States of two runs that go on in the same way, with slots in `E`. -/
structure Alike (M : Headers → Prop) (N : List PowerTraceNode → Prop) (E : Slot → Slot → Prop)
    (s u : St ρ) : Prop where
  world : s.world = u.world
  left : Begun d node M N s
  right : Begun d node M N u
  slots : E (s.ctx.getResults d.thread) (u.ctx.getResults d.thread)

end

/-! ### The call of the next node -/

section calls
variable {svc : Service ρ} {s : St ρ} {first n : PowerTraceNode} {tail : List PowerTraceNode}

theorem nextCall_eq (hnodes : s.nodes = first :: n :: tail) : s.nextCall = n.call := by
  unfold St.nextCall
  rw [hnodes]
  rfl

theorem modifyNext_eq (hnodes : s.nodes = first :: n :: tail) (f : PowerTraceNode → PowerTraceNode) :
    s.modifyNext f = s.withNodes (first :: f n :: tail) := by
  unfold St.modifyNext St.withNodes
  rw [hnodes]
  rfl

theorem chooseProtocol_eq (hnodes : s.nodes = first :: n :: tail) :
    chooseProtocol.run s = (.ok (), s.withNodes (first :: chosen n :: tail)) := by
  unfold chooseProtocol
  rw [run_bind_ok (run_read _ s), nextCall_eq hnodes]
  cases hprefix : hasDubboPrefix n.call with
  | false =>
      rw [chosen_eq_self hprefix, ← hnodes]
      rfl
  | true =>
      cases hcall : n.call with
      | none =>
          rw [hcall] at hprefix
          cases hprefix
      | some c =>
          have hlength : ¬ c.length < 8 := by
            have hle := length_of_hasDubboPrefix (hcall ▸ hprefix)
            omega
          have hstrip : stripPrefix.run s = (.ok (), s.withNodes
              (first :: { n with call := some (substring c 8) } :: tail)) := by
            unfold stripPrefix
            rw [run_atomic, nextCall_eq hnodes, hcall]
            simp only [if_neg hlength, modifyNext_eq hnodes]
          simp only [if_true]
          rw [run_bind_ok hstrip]
          unfold setBy
          rw [run_modify, modifyNext_eq (show (s.withNodes _).nodes = _ from rfl),
            chosen_eq_stripped hprefix hcall]
          rfl

/-- Send the instruction `sent` and store the answer. -/
def sendAndStore (sent : Instruction) (t : ThreadId) (invoker : RemoteInvoker ρ) (s : St ρ) :
    Except Exc (Option PowerfulResponse) × St ρ :=
  match invoker sent (s.ctx.view t) (s.world.put (.invocation s.request sent)) with
  | (.error e, w) => (.error e, { s with world := w })
  | (.ok response, w) =>
      (.ok (some response), { s with world := w, ctx := s.ctx.setResult t response })

theorem next_eq (i : Instruction) (text : Option String)
    (hnodes : s.nodes = first :: settled text n :: tail) : next i s = some (sentNext i (n :: tail) text) := by
  unfold next Instruction.getNext
  simp only [Instruction.nodes, Option.getD_some, hnodes]
  rfl

theorem sendAndStore_eq (i : Instruction) (t : ThreadId) (invoker : RemoteInvoker ρ) {sent : Instruction}
    (hsent : next i s = some sent) :
    (invoke i t invoker >>= fun response => setResult t response >>= fun _ =>
      (.pure (some response) : Run ρ (Option PowerfulResponse))).run s = sendAndStore sent t invoker s := by
  have hinvoke : (invoke i t invoker).run s =
      ((invoker sent (s.ctx.view t) (s.world.put (.invocation s.request sent))).1,
        { s with world := (invoker sent (s.ctx.view t) (s.world.put (.invocation s.request sent))).2 }) := by
    unfold invoke
    rw [run_atomic, hsent]
  unfold sendAndStore
  cases hout : invoker sent (s.ctx.view t) (s.world.put (.invocation s.request sent)) with
  | mk out w =>
      rw [hout] at hinvoke
      cases out with
      | error e => rw [run_bind_error hinvoke]
      | ok response =>
          rw [run_bind_ok hinvoke]
          rfl

/-- What calling the next node does. -/
theorem callNext_eq (i : Instruction) (t : ThreadId) (hnodes : s.nodes = first :: n :: tail) :
    (svc.callNext i t).run s = match (callBy n).bind svc.invokers with
      | none => (.error (.illegalState ("Protocol not supported in this instance: '" ++
          orNull (callBy n) ++ "'")), s.withNodes (first :: chosen n :: tail))
      | some invoker => match renderNullable svc.host (s.ctx.view t) (callText n) s.world.rand with
        | (.error e, r) => (.error e, (s.withRand r).withNodes (first :: chosen n :: tail))
        | (.ok text, r) =>
            if isEmpty text then (.ok none, (s.withRand r).withNodes (first :: settled text n :: tail))
            else sendAndStore (sentNext i (n :: tail) text) t invoker
              ((s.withRand r).withNodes (first :: settled text n :: tail)) := by
  unfold callNext
  rw [run_bind_ok (chooseProtocol_eq hnodes)]
  have hby : (s.withNodes (first :: chosen n :: tail)).nodes[1]?.bind PowerTraceNode.by_ = callBy n := rfl
  have hnext : (s.withNodes (first :: chosen n :: tail)).nextCall = callText n := rfl
  have hview : (s.withNodes (first :: chosen n :: tail)).ctx.view t = s.ctx.view t := rfl
  have hrand : (s.withNodes (first :: chosen n :: tail)).world.rand = s.world.rand := rfl
  cases hinvoker : (callBy n).bind svc.invokers with
  | none =>
      have hrun : svc.invokerOf.run (s.withNodes (first :: chosen n :: tail)) =
          (.error (.illegalState ("Protocol not supported in this instance: '" ++
            orNull (callBy n) ++ "'")), s.withNodes (first :: chosen n :: tail)) := by
        unfold invokerOf
        rw [run_atomic]
        simp only [hby, hinvoker]
      rw [run_bind_error hrun]
  | some invoker =>
      have hrun : svc.invokerOf.run (s.withNodes (first :: chosen n :: tail)) =
          (.ok invoker, s.withNodes (first :: chosen n :: tail)) := by
        unfold invokerOf
        rw [run_atomic]
        simp only [hby, hinvoker]
      rw [run_bind_ok hrun]
      cases hrender : renderNullable svc.host (s.ctx.view t) (callText n) s.world.rand with
      | mk out r =>
          cases out with
          | error e =>
              have hcall : (svc.renderCall t).run (s.withNodes (first :: chosen n :: tail)) =
                  (.error e, (s.withRand r).withNodes (first :: chosen n :: tail)) := by
                unfold renderCall
                rw [run_atomic, hnext, hview, hrand, hrender]
                rfl
              rw [run_bind_error hcall]
          | ok text =>
              have hcall : (svc.renderCall t).run (s.withNodes (first :: chosen n :: tail)) =
                  (.ok (), (s.withRand r).withNodes (first :: settled text n :: tail)) := by
                unfold renderCall
                rw [run_atomic, hnext, hview, hrand, hrender]
                rfl
              rw [run_bind_ok hcall, run_bind_ok (run_read _ _)]
              have hnext : isEmpty ((s.withRand r).withNodes (first :: settled text n :: tail)).nextCall =
                  isEmpty text := rfl
              rw [hnext]
              dsimp only
              cases isEmpty text with
              | true => rfl
              | false =>
                  exact sendAndStore_eq i t invoker
                    (next_eq (s := (s.withRand r).withNodes (first :: settled text n :: tail)) i text rfl)

end calls

/-! ### One iteration, step by step -/

section steps
variable {svc : Service ρ} {d : Delivery} {node : PowerTraceNode} {rest : List PowerTraceNode}
  {headers : Headers} {call : Option String}
variable {M M' : Headers → Prop} {N N' : List PowerTraceNode → Prop} {E E' : Slot → Slot → Prop}

theorem Begun.mono (hM : ∀ m, M m → M' m) (hN : ∀ ns, N ns → N' ns) {s : St ρ}
    (h : Begun d node M N s) : Begun d node M' N' s := by
  obtain ⟨m, hheaders, hm⟩ := h.headers
  obtain ⟨own, ns, hnodes, hns⟩ := h.nodes
  exact ⟨h.request, h.path, h.params, ⟨m, hheaders, hM m hm⟩, ⟨own, ns, hnodes, hN ns hns⟩,
    h.invokeResult⟩

theorem Alike.mono (hM : ∀ m, M m → M' m) (hN : ∀ ns, N ns → N' ns) (hE : ∀ x y, E x y → E' x y)
    {s u : St ρ} (h : Alike d node M N E s u) : Alike d node M' N' E' s u :=
  ⟨h.world, h.left.mono hM hN, h.right.mono hM hN, hE _ _ h.slots⟩

theorem Begun.withWorld {s : St ρ} (h : Begun d node M N s) (w : World ρ) :
    Begun d node M N { s with world := w } :=
  ⟨h.request, h.path, h.params, h.headers, h.nodes, h.invokeResult⟩

theorem Begun.perform {s : St ρ} (h : Begun d node M N s) (n : ℕ) : Begun d node M N (s.perform n) :=
  ⟨h.request, h.path, h.params, h.headers, h.nodes, h.invokeResult⟩

theorem Begun.withNodes {s : St ρ} (h : Begun d node M N s) (own : Option Headers) {ns : List PowerTraceNode}
    (hns : N' ns) : Begun d node M N' (s.withNodes ({ node with headers := own } :: ns)) :=
  ⟨h.request, h.path, h.params, h.headers, ⟨own, ns, rfl, hns⟩, h.invokeResult⟩

theorem Alike.withRand {s u : St ρ} (h : Alike d node M N E s u) (r : ρ) :
    Alike d node M N E (s.withRand r) (u.withRand r) := by
  refine ⟨?_, h.left.withWorld _, h.right.withWorld _, h.slots⟩
  unfold St.withRand
  simp only [h.world]

/-- The outcome is a value, and the states are alike. -/
def Goes (d : Delivery) (node : PowerTraceNode) (M : Headers → Prop) (N : List PowerTraceNode → Prop)
    (E : Slot → Slot → Prop) {α : Type} (o : Except Exc α) (s u : St ρ) : Prop :=
  (∃ a, o = .ok a) ∧ Alike d node M N E s u

theorem draw_alike {α : Type} (f : ρ → α × ρ) :
    Couples (Alike d node M N E) (Goes d node M N E) (draw f : Run ρ α) (draw f) := by
  refine Couples.atomic fun s u h => ?_
  rw [← h.world]
  exact ⟨rfl, ⟨_, rfl⟩, h.withRand _⟩

theorem sleep_alike : Couples (Alike d node M N E) (Goes d node M N E) (sleep : Run ρ Unit) sleep :=
  Couples.modify fun _ _ h => ⟨⟨(), rfl⟩, h⟩

/-- The propagation changes the headers of the first node, at most. -/
theorem propagateHeaders_run {s : St ρ} (h : Begun d node M N s) (i : Instruction) :
    ∃ s', (propagateHeaders i).run s = (.ok (), s') ∧ s'.world = s.world ∧ s'.ctx = s.ctx ∧
      Begun d node M N s' := by
  obtain ⟨m, hheaders, -⟩ := h.headers
  obtain ⟨own, ns, hnodes, hns⟩ := h.nodes
  unfold propagateHeaders
  rw [run_atomic, hheaders]
  cases i.propagateHeaders with
  | none => exact ⟨s, rfl, rfl, rfl, h⟩
  | some propagate =>
      simp only [hnodes]
      split
      · exact ⟨s, rfl, rfl, rfl, h⟩
      · split
        · exact ⟨s, rfl, rfl, rfl, h⟩
        · exact ⟨_, rfl, rfl, rfl, h.withNodes _ hns⟩

theorem propagateHeaders_alike (i : Instruction) :
    Couples (Alike d node M N E) (Goes d node M N E) (propagateHeaders i : Run ρ Unit)
      (propagateHeaders i) := by
  intro s u h
  obtain ⟨s', hs, hworld, hctx, hleft⟩ := propagateHeaders_run h.left i
  obtain ⟨u', hu, hworld', hctx', hright⟩ := propagateHeaders_run h.right i
  rw [hs, hu]
  refine ⟨rfl, ⟨(), rfl⟩, ?_, hleft, hright, ?_⟩
  · rw [hworld, hworld', h.world]
  · rw [hctx, hctx']
    exact h.slots

/-- A header that settles is rendered in place. -/
theorem renderHeader_run (h : HeadersSettle svc d headers) (k : String) {s : St ρ}
    (hpath : s.ctx.path = d.path) (hparams : s.ctx.params = d.params) {m : Headers}
    (hheaders : s.ctx.requestHeaders = some m) (hm : Mixed d headers m) :
    ∃ m', (svc.renderHeader d.thread k).run s =
        (.ok (), s.withCtx { s.ctx with requestHeaders := some m' }) ∧ Mixed d headers m' ∧
      m'.lookup k = headers.lookup k ∧
      ∀ l, m.lookup l = headers.lookup l → m'.lookup l = headers.lookup l := by
  have hview : OfRequest d (s.ctx.view d.thread) := by
    refine ⟨hpath, hparams, ?_⟩
    show s.ctx.requestHeaders.isSome
    rw [hheaders]
    rfl
  unfold renderHeader
  rw [run_atomic]
  simp only [hheaders, Option.bind_some]
  cases hk : m.lookup k with
  | none =>
      refine ⟨m, ?_, hm, ?_, fun l hl => hl⟩
      · rw [← hheaders]
        rfl
      · rcases hm k with hreceived | hrendered
        · rw [hk] at hreceived ⊢
          exact (AList.lookup_eq_none.mpr (h.names k (AList.lookup_eq_none.mp hreceived.symm))).symm
        · exact hrendered
  | some value =>
      obtain ⟨out, hout, hrender⟩ : ∃ out, headers.lookup k = some out ∧
          RendersTo svc.host (OfRequest d) value out := by
        rcases hm k with hreceived | hrendered
        · obtain ⟨out, hout, hsettles⟩ := h.rendered k value (hreceived.symm.trans hk)
          exact ⟨out, hout, hsettles.1⟩
        · have hset : headers.lookup k = some value := hrendered.symm.trans hk
          have hmem : k ∈ d.requestHeaders := by
            by_contra hnot
            rw [AList.lookup_eq_none.mpr (h.names k hnot)] at hset
            cases hset
          obtain ⟨received, hreceived⟩ := Option.isSome_iff_exists.mp (AList.lookup_isSome.mpr hmem)
          obtain ⟨out, hout, hsettles⟩ := h.rendered k received hreceived
          obtain rfl := Option.some.inj (hset.symm.trans hout)
          exact ⟨value, hset, hsettles.2⟩
      refine ⟨m.insert k out, ?_, fun l => ?_, ?_, fun l hl => ?_⟩
      · simp only [hrender _ s.world.rand hview]
        unfold RenderingContext.putRequestHeader
        rw [hheaders]
        rfl
      · by_cases hl : l = k
        · rw [hl, AList.lookup_insert, hout]
          exact Or.inr rfl
        · rw [AList.lookup_insert_ne hl]
          exact hm l
      · rw [AList.lookup_insert, hout]
      · by_cases hlk : l = k
        · rw [hlk, AList.lookup_insert, hout]
        · rw [AList.lookup_insert_ne hlk, hl]

/-- Headers that settle are rendered one after the other. -/
theorem renderHeaderList_run (h : HeadersSettle svc d headers) :
    ∀ (ks : List String) {s : St ρ}, s.ctx.path = d.path → s.ctx.params = d.params →
      ∀ {m : Headers}, s.ctx.requestHeaders = some m → Mixed d headers m →
        ∃ m', (svc.renderHeaderList d.thread ks).run s =
            (.ok (), s.withCtx { s.ctx with requestHeaders := some m' }) ∧
          Mixed d headers m' ∧ ∀ k, (k ∈ ks ∨ m.lookup k = headers.lookup k) →
            m'.lookup k = headers.lookup k
  | [], s, _, _, m, hheaders, hm => by
      refine ⟨m, ?_, hm, fun k hk => hk.resolve_left List.not_mem_nil⟩
      rw [← hheaders]
      rfl
  | k :: ks, s, hpath, hparams, m, hheaders, hm => by
      obtain ⟨m₁, hrun₁, hm₁, hk₁, hkeep₁⟩ := renderHeader_run h k hpath hparams hheaders hm
      obtain ⟨m', hrun, hm', hall⟩ := renderHeaderList_run h ks
        (s := s.withCtx { s.ctx with requestHeaders := some m₁ }) hpath hparams rfl hm₁
      refine ⟨m', ?_, hm', fun l hl => hall l ?_⟩
      · show ((svc.renderHeader d.thread k) >>= fun _ => svc.renderHeaderList d.thread ks).run s = _
        rw [run_bind_ok hrun₁, hrun]
        rfl
      · rcases hl with hl | hl
        · rcases List.mem_cons.mp hl with rfl | hl
          · exact Or.inr hk₁
          · exact Or.inl hl
        · exact Or.inr (hkeep₁ l hl)

/-- The headers of both runs are rendered to the same ones. -/
theorem renderHeaders_alike (h : HeadersSettle svc d headers) :
    Couples (Alike d node (Mixed d headers) N E) (Goes d node (AllRendered headers) N E)
      (svc.renderHeaders d.thread) (svc.renderHeaders d.thread) := by
  have hrun : ∀ s, Begun d node (Mixed d headers) N s → ∃ s',
      (svc.renderHeaders d.thread).run s = (.ok (), s') ∧ s'.world = s.world ∧
        s'.ctx.getResults d.thread = s.ctx.getResults d.thread ∧
        Begun d node (AllRendered headers) N s' := by
    intro s hs
    obtain ⟨m, hheaders, hm⟩ := hs.headers
    obtain ⟨m', hlist, -, hall⟩ := renderHeaderList_run h m.keys hs.path hs.params hheaders hm
    refine ⟨s.withCtx { s.ctx with requestHeaders := some m' }, ?_, rfl, rfl, hs.request, hs.path,
      hs.params, ⟨m', rfl, fun k => hall k ?_⟩, hs.nodes, hs.invokeResult⟩
    · unfold renderHeaders
      rw [run_bind_ok (run_read _ s), hheaders]
      exact hlist
    · by_cases hk : k ∈ m.keys
      · exact Or.inl hk
      · right
        have hnone : m.lookup k = none := AList.lookup_eq_none.mpr fun hmem => hk (AList.mem_keys.mp hmem)
        rcases hm k with hreceived | hrendered
        · rw [hnone] at hreceived ⊢
          exact (AList.lookup_eq_none.mpr (h.names k (AList.lookup_eq_none.mp hreceived.symm))).symm
        · exact hrendered
  intro s u hsu
  obtain ⟨s', hs, hworld, hslot, hleft⟩ := hrun s hsu.left
  obtain ⟨u', hu, hworld', hslot', hright⟩ := hrun u hsu.right
  rw [hs, hu]
  refine ⟨rfl, ⟨(), rfl⟩, ?_, hleft, hright, ?_⟩
  · rw [hworld, hworld', hsu.world]
  · rw [hslot, hslot']
    exact hsu.slots

/-- Write the slots of both runs. -/
theorem Alike.setSlot {s u : St ρ} (h : Alike d node M N E s u) {x y : Slot} (hE : E' x y)
    (hx : ¬ CallsMethod node → x.invokeResult = none) (hy : ¬ CallsMethod node → y.invokeResult = none) :
    Alike d node M N E' (s.withCtx (s.ctx.setSlot d.thread x)) (u.withCtx (u.ctx.setSlot d.thread y)) := by
  refine ⟨h.world, ?_, ?_, ?_⟩
  · refine ⟨h.left.request, h.left.path, h.left.params, h.left.headers, h.left.nodes, ?_⟩
    simp only [St.withCtx, RenderingContext.getResults_setSlot]
    exact hx
  · refine ⟨h.right.request, h.right.path, h.right.params, h.right.headers, h.right.nodes, ?_⟩
    simp only [St.withCtx, RenderingContext.getResults_setSlot]
    exact hy
  · simp only [St.withCtx, RenderingContext.getResults_setSlot]
    exact hE

/-- The last responses are the same, or they do not matter. -/
def SameResponse (P : Prop) (x y : Slot) : Prop := P ∨ x.response = y.response

/-- Besides, the called method has returned the same. -/
def SameMethod (P : Prop) (x y : Slot) : Prop := SameResponse P x y ∧ x.invokeResult = y.invokeResult

variable {P : Prop}

theorem invokeTestMethod_alike :
    Couples (Alike d node M N (SameResponse P)) (fun _ => Alike d node M N (SameMethod P))
      (svc.invokeTestMethod d.thread node) (svc.invokeTestMethod d.thread node) := by
  have hidle : ¬ CallsMethod node → ∀ s u : St ρ, Alike d node M N (SameResponse P) s u →
      Alike d node M N (SameMethod P) s u := by
    intro hcalls s u h
    refine ⟨h.world, h.left, h.right, h.slots, ?_⟩
    rw [h.left.invokeResult hcalls, h.right.invokeResult hcalls]
  unfold invokeTestMethod
  cases hmethod : node.callTestMethod with
  | none =>
      refine Couples.pure (hidle ?_)
      rintro ⟨n, hn, -⟩
      rw [hmethod] at hn
      cases hn
  | some n =>
      simp only
      split
      · rename_i hzero
        refine Couples.pure (hidle ?_)
        rintro ⟨k, hk, hne, -⟩
        rw [hmethod] at hk
        exact hne (Option.some.inj hk ▸ hzero)
      · rename_i hne
        split
        · rename_i hillegal
          refine Couples.throw (hidle ?_)
          rintro ⟨k, hk, -, hlegal⟩
          rw [hmethod] at hk
          exact hlegal (Option.some.inj hk ▸ hillegal)
        · rename_i hlegal
          have hcalls : CallsMethod node := ⟨n, hmethod, hne, hlegal⟩
          refine Couples.seq (draw_alike _) fun k => Couples.modify fun s u h => ?_
          exact h.setSlot ⟨h.slots, rfl⟩ (fun hnot => absurd hcalls hnot) fun hnot => absurd hcalls hnot

theorem delay_alike (n : PowerTraceNode) :
    Couples (Alike d node M N E) (Goes d node M N E) (delay n : Run ρ Unit) (delay n) := by
  unfold delay
  split
  · exact sleep_alike
  · exact Couples.pure fun _ _ h => ⟨⟨(), rfl⟩, h⟩

theorem errorByPercent_alike (n : PowerTraceNode) :
    Couples (Alike d node M N E) (fun _ => Alike d node M N E) (svc.errorByPercent n)
      (svc.errorByPercent n) := by
  unfold errorByPercent
  split
  · exact Couples.throw fun _ _ h => h
  · split
    · refine Couples.seq (draw_alike _) fun k => ?_
      split
      · exact Couples.throw fun _ _ h => h
      · exact Couples.pure fun _ _ h => h
    · exact Couples.pure fun _ _ h => h

/-- Behind it the code of the node is 200. -/
theorem code_alike (n : PowerTraceNode) :
    Couples (Alike d node M N E) (fun o s u => (o = .ok () → n.code = 200) ∧ Alike d node M N E s u)
      (svc.code n) (svc.code n) := by
  unfold code
  split
  · rename_i hcode
    exact Couples.pure fun _ _ h => ⟨fun _ => hcode, h⟩
  · split
    · refine Couples.throw fun _ _ h => ⟨fun hok => ?_, h⟩
      cases hok
    · refine Couples.throw fun _ _ h => ⟨fun hok => ?_, h⟩
      cases hok

/-! ### What is called -/

/-- The called nodes once the call is rendered. -/
def Settled (rest : List PowerTraceNode) (call : Option String) (ns : List PowerTraceNode) : Prop :=
  ns = rest.modify 0 (settled call)

theorem settled_nodes {n : PowerTraceNode} {tail : List PowerTraceNode} (hrest : rest = n :: tail) :
    Settled rest call (settled call n :: tail) := by
  unfold Settled
  rw [hrest, List.modify_zero_cons]

theorem ofRequest_view {s : St ρ} (hs : Begun d node M N s) : OfRequest d (s.ctx.view d.thread) := by
  obtain ⟨m, hheaders, -⟩ := hs.headers
  refine ⟨hs.path, hs.params, ?_⟩
  show s.ctx.requestHeaders.isSome
  rw [hheaders]
  rfl

theorem withHeaders_view {s : St ρ} (hs : Begun d node (AllRendered headers) N s) :
    WithHeaders d headers (s.ctx.view d.thread) := by
  refine ⟨ofRequest_view hs, fun k => ?_⟩
  obtain ⟨m, hheaders, hm⟩ := hs.headers
  show s.ctx.requestHeaders.bind (AList.lookup k) = _
  rw [hheaders]
  exact hm k

/-- The views of both runs show the same request. -/
theorem Alike.sameRequest (hE : ∀ x y, E x y → x.invokeResult = y.invokeResult) {s u : St ρ}
    (h : Alike d node (AllRendered headers) N E s u) :
    (s.ctx.view d.thread).SameRequest (u.ctx.view d.thread) := by
  obtain ⟨m, hheaders, hm⟩ := h.left.headers
  obtain ⟨m', hheaders', hm'⟩ := h.right.headers
  refine ⟨?_, fun k => ?_, h.left.path.trans h.right.path.symm, h.left.params.trans h.right.params.symm,
    hE _ _ h.slots⟩
  · show s.ctx.requestHeaders.isSome = u.ctx.requestHeaders.isSome
    rw [hheaders, hheaders']
    rfl
  · show s.ctx.requestHeaders.bind (AList.lookup k) = u.ctx.requestHeaders.bind (AList.lookup k)
    rw [hheaders, hheaders']
    exact (hm k).trans (hm' k).symm

/-- The next node is called. -/
def Answers (rest : List PowerTraceNode) (call : Option String) : Prop :=
  rest ≠ [] ∧ isEmpty call = false

/-- What two runs leave behind their bodies, with nodes in `N`: the same response, if there is one;
without one the next node need not have answered. -/
def EndsAlike (d : Delivery) (node : PowerTraceNode) (headers : Headers) (N : List PowerTraceNode → Prop)
    (A P : Prop) (o : Except Exc (Option PowerfulResponse)) (s u : St ρ) : Prop :=
  Alike d node (AllRendered headers) N (SameMethod P) s u ∧
    (∀ response, o = .ok (some response) → (s.ctx.getResults d.thread).response = response ∧
      (u.ctx.getResults d.thread).response = response) ∧
    (o = .ok none → ¬ A)

theorem Alike.withNodes {s u : St ρ} (h : Alike d node M N E s u) (own own' : Option Headers)
    {ns ns' : List PowerTraceNode} (hns : N' ns) (hns' : N' ns') :
    Alike d node M N' E (s.withNodes ({ node with headers := own } :: ns))
      (u.withNodes ({ node with headers := own' } :: ns')) :=
  ⟨h.world, h.left.withNodes own hns, h.right.withNodes own' hns', h.slots⟩

theorem endsAlike_error {A : Prop} {e : Exc} {s u : St ρ}
    (h : Alike d node (AllRendered headers) N (SameMethod P) s u) :
    EndsAlike d node headers N A P (.error e) s u := by
  refine ⟨h, fun response hok => ?_, fun hok => ?_⟩
  · cases hok
  · cases hok

theorem endsAlike_none {A : Prop} (hA : ¬ A) {s u : St ρ}
    (h : Alike d node (AllRendered headers) N (SameMethod P) s u) :
    EndsAlike d node headers N A P (.ok none) s u := by
  refine ⟨h, fun response hok => ?_, fun _ => hA⟩
  cases hok

/-- Both runs get the same answer to the same instruction. -/
theorem sendAndStore_alike {A : Prop} {sent : Instruction} {invoker : RemoteInvoker ρ}
    (hinvoker : ∀ v v' w, v.SameRequest v' → invoker sent v w = invoker sent v' w) {s u : St ρ}
    (h : Alike d node (AllRendered headers) N (SameMethod P) s u) :
    (sendAndStore sent d.thread invoker s).1 = (sendAndStore sent d.thread invoker u).1 ∧
      EndsAlike d node headers N A P (sendAndStore sent d.thread invoker s).1
        (sendAndStore sent d.thread invoker s).2 (sendAndStore sent d.thread invoker u).2 := by
  have hworld : u.world.put (.invocation u.request sent) = s.world.put (.invocation s.request sent) := by
    rw [h.world, h.left.request, h.right.request]
  have hview := h.sameRequest fun _ _ hE => hE.2
  unfold sendAndStore
  rw [hworld, ← hinvoker _ _ (s.world.put (.invocation s.request sent)) hview]
  cases invoker sent (s.ctx.view d.thread) (s.world.put (.invocation s.request sent)) with
  | mk out w =>
      have hsame : Alike d node (AllRendered headers) N (SameMethod P) { s with world := w }
          { u with world := w } := ⟨rfl, h.left.withWorld w, h.right.withWorld w, h.slots⟩
      cases out with
      | error e => exact ⟨rfl, endsAlike_error hsame⟩
      | ok response =>
          refine ⟨rfl, ?_, fun response' hok => ?_, fun hok => ?_⟩
          · exact hsame.setSlot ⟨Or.inr rfl, h.slots.2⟩ h.left.invokeResult h.right.invokeResult
          · obtain rfl := Option.some.inj (Except.ok.inj hok)
            simp only [RenderingContext.setResult, RenderingContext.getResults_setSlot, and_self]
          · cases hok

/-- The next node at any time: as it was, with its protocol chosen, or with its call rendered. -/
theorem Worked.cons {n : PowerTraceNode} {tail ns : List PowerTraceNode} (hrest : rest = n :: tail)
    (h : Worked svc node rest call ns) : ∃ m, ns = m :: tail ∧
      (m = n ∨ m = chosen n ∨ (svc.Reaches node rest ∧ m = settled call n)) := by
  rcases h with hns | hns | ⟨hreaches, hns⟩
  · exact ⟨n, hns.trans hrest, Or.inl rfl⟩
  · refine ⟨chosen n, ?_, Or.inr (Or.inl rfl)⟩
    rw [hns, hrest, List.modify_zero_cons]
  · refine ⟨settled call n, ?_, Or.inr (Or.inr ⟨hreaches, rfl⟩)⟩
    rw [hns, hrest, List.modify_zero_cons]

/-- What calling it depends on is the same at any time. -/
theorem Steady.next (h : Steady svc d node rest headers call) {n m : PowerTraceNode}
    {tail : List PowerTraceNode} (hrest : rest = n :: tail)
    (hm : m = n ∨ m = chosen n ∨ (svc.Reaches node rest ∧ m = settled call n)) :
    callBy m = callBy n ∧ (∀ text, settled text m = settled text n) ∧
      (svc.Reaches node rest → RendersTo svc.host (WithHeaders d headers) (callText m) call) ∧
      Chosen svc node rest call (chosen m :: tail) := by
  have hhead : rest.head? = some n := by
    rw [hrest]
    rfl
  have hchosen : Chosen svc node rest call (chosen n :: tail) := by
    refine Or.inl ?_
    rw [hrest, List.modify_zero_cons]
  rcases hm with rfl | rfl | ⟨hreaches, rfl⟩
  · exact ⟨rfl, fun _ => rfl, fun hreaches => (h.settles m hhead hreaches).1.1, hchosen⟩
  · have hplain : hasDubboPrefix (chosen n).call = false := h.once n hhead
    have hby : callBy (chosen n) = callBy n := callBy_of_plain hplain
    refine ⟨hby, fun text => ?_, fun hreaches => ?_, ?_⟩
    · unfold settled
      rw [hby]
      rfl
    · rw [callText_of_plain hplain]
      exact (h.settles n hhead hreaches).1.1
    · rw [chosen_eq_self hplain]
      exact hchosen
  · have hplain : hasDubboPrefix (settled call n).call = false := (h.settles n hhead hreaches).2
    have hby : callBy (settled call n) = callBy n := callBy_of_plain hplain
    refine ⟨hby, fun text => ?_, fun hreaches => ?_, ?_⟩
    · unfold settled
      rw [show callBy { n with call := call, by_ := callBy n } = callBy n from hby]
    · rw [callText_of_plain hplain]
      exact (h.settles n hhead hreaches).1.2
    · rw [chosen_eq_self hplain]
      exact Or.inr ⟨hreaches, settled_nodes hrest⟩

theorem callNext_alike (h : Steady svc d node rest headers call) (hcode : node.code = 200)
    {n : PowerTraceNode} {tail : List PowerTraceNode} (hrest : rest = n :: tail) :
    Couples (Alike d node (AllRendered headers) (Worked svc node rest call) (SameMethod P))
      (EndsAlike d node headers (Worked svc node rest call) (Answers rest call) P)
      (svc.callNext d.instruction d.thread) (svc.callNext d.instruction d.thread) := by
  intro s u hsu
  obtain ⟨own, ns, hnodes, hns⟩ := hsu.left.nodes
  obtain ⟨own', ns', hnodes', hns'⟩ := hsu.right.nodes
  obtain ⟨m, rfl, hm⟩ := hns.cons hrest
  obtain ⟨m', rfl, hm'⟩ := hns'.cons hrest
  obtain ⟨hby, hsettled, hrenders, hchosen⟩ := h.next hrest hm
  obtain ⟨hby', hsettled', hrenders', hchosen'⟩ := h.next hrest hm'
  have hhead : rest.head? = some n := by
    rw [hrest]
    rfl
  rw [callNext_eq d.instruction d.thread hnodes, callNext_eq d.instruction d.thread hnodes', hby, hby']
  cases hinvoker : (callBy n).bind svc.invokers with
  | none => exact ⟨rfl, endsAlike_error (hsu.withNodes own own' (Or.inr hchosen) (Or.inr hchosen'))⟩
  | some invoker =>
      have hreaches : svc.Reaches node rest := by
        refine ⟨hcode, n, hhead, ?_⟩
        rw [hinvoker]
        rfl
      have hworked : Worked svc node rest call (settled call n :: tail) :=
        Or.inr (Or.inr ⟨hreaches, settled_nodes hrest⟩)
      have hsent : ∀ m, settled call m = settled call n →
          sentNext d.instruction (m :: tail) call = sentNext d.instruction rest call := by
        intro m hm
        unfold sentNext
        rw [List.modify_zero_cons, hm, settled_nodes hrest]
      have hsame := (hsu.withRand s.world.rand).withNodes own own' hworked hworked
      dsimp only
      rw [hrenders hreaches _ _ (withHeaders_view hsu.left), hrenders' hreaches _ _ (withHeaders_view hsu.right),
        ← hsu.world]
      dsimp only
      rw [hsettled, hsettled', hsent m (hsettled call), hsent m' (hsettled' call)]
      cases hcall : isEmpty call with
      | true =>
          refine ⟨rfl, endsAlike_none ?_ hsame⟩
          rintro ⟨-, hfull⟩
          rw [hcall] at hfull
          cases hfull
      | false => exact sendAndStore_alike (h.invoker n invoker hhead hinvoker hcall) hsame

theorem call_alike (h : Steady svc d node rest headers call) (hcode : node.code = 200) :
    Couples (Alike d node (AllRendered headers) (Worked svc node rest call) (SameMethod P))
      (EndsAlike d node headers (Worked svc node rest call) (Answers rest call) P)
      (svc.call d.instruction d.thread) (svc.call d.instruction d.thread) := by
  have hlast : ∀ {s : St ρ}, Begun d node (AllRendered headers) (Worked svc node rest call) s →
      s.nodes[1]?.isNone = rest.isEmpty := by
    intro s hs
    obtain ⟨own, ns, hnodes, hns⟩ := hs.nodes
    rw [hnodes, List.getElem?_cons_succ]
    rcases hns with rfl | hns | ⟨-, hns⟩
    · cases ns <;> rfl
    · rw [hns]
      cases rest <;> simp
    · rw [hns]
      cases rest <;> simp
  refine Couples.readBind fun s u hsu => ?_
  rw [hlast hsu.left, hlast hsu.right]
  cases hempty : rest.isEmpty with
  | true =>
      refine Couples.pure (fun s u hsu => endsAlike_none ?_ hsu) s u hsu
      rintro ⟨hne, -⟩
      exact hne (List.isEmpty_iff.mp hempty)
  | false =>
      obtain ⟨n, tail, hrest⟩ := List.exists_cons_of_ne_nil (List.isEmpty_eq_false_iff.mp hempty)
      exact callNext_alike h hcode hrest s u hsu

/-- Two iterations do the same if they call the next node in the same way. -/
theorem doExecuteSingle_endsAlike {A : Prop} {i : Instruction} (hheaders : HeadersSettle svc d headers)
    (hN : ∀ ns, N ns → N' ns) (hcall : node.code = 200 →
      Couples (Alike d node (AllRendered headers) N (SameMethod P)) (EndsAlike d node headers N' A P)
        (svc.call i d.thread) (svc.call i d.thread)) :
    Couples (Alike d node (Mixed d headers) N (SameResponse P)) (EndsAlike d node headers N' A P)
      (svc.doExecuteSingle i d.thread) (svc.doExecuteSingle i d.thread) := by
  have herror : ∀ {e : Exc} {s u : St ρ}, Alike d node (AllRendered headers) N (SameMethod P) s u →
      EndsAlike d node headers N' A P (.error e) s u :=
    fun hsu => endsAlike_error (hsu.mono (fun _ hm => hm) hN fun _ _ hE => hE)
  refine Couples.seq (propagateHeaders_alike _) fun _ => ?_
  refine Couples.seq (renderHeaders_alike hheaders) fun _ => ?_
  refine Couples.readBind fun s u hsu => ?_
  obtain ⟨own, ns, hnodes, -⟩ := hsu.left.nodes
  obtain ⟨own', ns', hnodes', -⟩ := hsu.right.nodes
  rw [hnodes, hnodes']
  have hmethod : Couples (Alike d node (AllRendered headers) N (SameResponse P))
      (fun _ => Alike d node (AllRendered headers) N (SameMethod P))
      (svc.invokeTestMethod d.thread node) (svc.invokeTestMethod d.thread node) := invokeTestMethod_alike
  -- nothing that follows looks at the headers of the node
  refine Couples.bind hmethod (fun _ => ?_) (fun _ _ _ hsu => herror hsu) s u hsu
  refine Couples.seq (delay_alike node) fun _ => ?_
  refine Couples.bind (errorByPercent_alike node) (fun _ => ?_) fun _ _ _ hsu => herror hsu
  refine Couples.bind (code_alike node) (fun _ s u hsu => ?_) fun _ _ _ hsu => herror hsu.2
  exact hcall (hsu.1 rfl) s u hsu.2

theorem doExecuteSingle_alike (h : Steady svc d node rest headers call) :
    Couples (Alike d node (Mixed d headers) (Worked svc node rest call) (SameResponse P))
      (EndsAlike d node headers (Worked svc node rest call) (Answers rest call) P)
      (svc.doExecuteSingle d.instruction d.thread) (svc.doExecuteSingle d.instruction d.thread) :=
  doExecuteSingle_endsAlike h.headersSettle (fun _ hns => hns) fun hcode => call_alike h hcode

/-! ### The record -/

/-- The record does not show the last response. -/
def Ignores (svc : Service ρ) (source : Option String) : Prop :=
  ∀ v v' r, v.SameRequest v' → v.slot.delayMillis = v'.slot.delayMillis →
    renderNullable svc.host v source r = renderNullable svc.host v' source r

/-- Slots that show the same record. -/
def SameRecord (Q : Prop) (x y : Slot) : Prop :=
  (Q ∨ x.response = y.response) ∧ x.invokeResult = y.invokeResult ∧ x.delayMillis = y.delayMillis

/-- The slots before the delay is stored. -/
def SameOutcome (Q : Prop) (x y : Slot) : Prop :=
  (Q ∨ x.response = y.response) ∧ x.invokeResult = y.invokeResult

variable {Q : Prop}

theorem storeDelay_alike (n : ℕ) :
    Couples (Alike d node M N (SameOutcome Q)) (Goes d node M N (SameRecord Q))
      (svc.storeDelay d.thread n) (svc.storeDelay d.thread n) := by
  refine Couples.seq (draw_alike _) fun now => ?_
  refine Couples.seq (T := Alike d node M N (SameRecord Q)) (Couples.modify fun s u hsu => ⟨⟨(), rfl⟩, ?_⟩)
    fun _ => Couples.pure fun _ _ hsu => ⟨⟨_, rfl⟩, hsu⟩
  exact hsu.setSlot ⟨hsu.slots.1, hsu.slots.2, rfl⟩ hsu.left.invokeResult hsu.right.invokeResult

/-- Behind the body both runs store the same, and only a record that ignores the last response can
be made with different ones. -/
theorem conclude_endsAlike {A : Prop} (source : Option String) (n : ℕ)
    (o : Except Exc (Option PowerfulResponse)) :
    Couples (EndsAlike d node headers N A (A ∨ Q) o) (Goes d node (AllRendered headers) N (SameRecord Q))
      (svc.conclude d.thread true source n o) (svc.conclude d.thread true source n o) := by
  cases o with
  | ok response? =>
      refine Couples.seq (T := Alike d node (AllRendered headers) N (SameRecord Q))
        (fun s u hsu => ?_) fun _ => Couples.pure fun _ _ hsu => ⟨⟨_, rfl⟩, hsu⟩
      obtain ⟨hsame, hresponse, hnone⟩ := hsu
      refine storeDelay_alike n s u ⟨hsame.world, hsame.left, hsame.right, ?_, hsame.slots.2⟩
      cases response? with
      | none =>
          rcases hsame.slots.1 with (hanswers | hignores) | hslot
          · exact absurd hanswers (hnone rfl)
          · exact Or.inl hignores
          · exact Or.inr hslot
      | some response =>
          obtain ⟨hleft, hright⟩ := hresponse response rfl
          exact Or.inr (hleft.trans hright.symm)
  | error e =>
      refine Couples.seq (T := Alike d node (AllRendered headers) N (SameOutcome Q))
        (Couples.modify fun s u hsu => ⟨⟨(), rfl⟩, ?_⟩) fun _ => ?_
      · exact hsu.1.setSlot ⟨Or.inr rfl, hsu.1.slots.2⟩ hsu.1.left.invokeResult hsu.1.right.invokeResult
      · exact Couples.seq (T := Alike d node (AllRendered headers) N (SameRecord Q))
          (storeDelay_alike n) fun _ => Couples.pure fun _ _ hsu => ⟨⟨_, rfl⟩, hsu⟩

theorem renderText_alike {source : Option String} (hQ : Q → svc.Ignores source) :
    Couples (Alike d node (AllRendered headers) N (SameRecord Q))
      (fun _ => Alike d node (AllRendered headers) N (SameRecord Q))
      (svc.renderText d.thread source) (svc.renderText d.thread source) := by
  refine Couples.atomic fun s u hsu => ?_
  have hview := hsu.sameRequest fun _ _ hE => hE.2.1
  have hsame : renderNullable svc.host (s.ctx.view d.thread) source s.world.rand =
      renderNullable svc.host (u.ctx.view d.thread) source u.world.rand := by
    rw [← hsu.world]
    rcases hsu.slots.1 with hignores | hresponse
    · exact hQ hignores _ _ _ hview hsu.slots.2.2
    · exact renderNullable_sameRequest hview hresponse hsu.slots.2.2 source _
  rw [hsame]
  exact ⟨rfl, hsu.withRand _⟩

/-! ### One iteration -/

theorem processLoop_plain {i : Instruction} (hrr : i.rr.map AList.entries = some []) (n : ℕ) :
    svc.processLoop i n = .ok i := by
  obtain ⟨rr, hrr, hempty⟩ := Option.map_eq_some_iff.mp hrr
  unfold processLoop
  simp only [hrr, hempty, if_true]

theorem executeProcessed_plain {i : Instruction} (hrr : i.rr.map AList.entries = some []) (t : ThreadId)
    (n : ℕ) (s : St ρ) : (svc.executeProcessed i t n).run s = (svc.doExecuteSingle i t).run s := by
  unfold executeProcessed
  rw [run_bind, run_atomic, processLoop_plain (i := { i with trace := some s.nodes }) hrr n]
  simp only [if_pos hrr]

theorem awaitTurn_alike (qps : ℚ) :
    Couples (Alike d node M N E) (Goes d node M N E) (svc.awaitTurn qps) (svc.awaitTurn qps) := by
  unfold awaitTurn
  split
  · exact Couples.pure fun _ _ h => ⟨⟨(), rfl⟩, h⟩
  · exact Couples.seq (draw_alike _) fun _ => Couples.pure fun _ _ h => ⟨⟨(), rfl⟩, h⟩

/-- What an execution does around its body. -/
def around (svc : Service ρ) (t : ThreadId) (handleException : Bool) (qps : ℚ) (source : Option String)
    (body : Run ρ (Option PowerfulResponse)) : Run ρ Result := do
  svc.awaitTurn qps
  sleep
  let requestStarts ← draw svc.host.nanoTime
  let outcome ← body.attempt
  let own ← svc.conclude t handleException source requestStarts outcome
  let delayMillis ← .read fun s => (s.ctx.getResults t).delayMillis
  let renderResult ← svc.renderText t source
  .pure ⟨delayMillis, renderResult, own.1, own.2⟩

theorem executeSingle_around {i : Instruction} {source : Option String} (hsource : template i = .ok source)
    (t : ThreadId) (handleException : Bool) (qps : ℚ) (n : ℕ) (s : St ρ) :
    (svc.executeSingle i t handleException qps n).run s =
      (svc.around t handleException qps source (svc.executeProcessed i t n)).run (s.perform n) := by
  unfold executeSingle
  rw [run_bind_ok (run_modify _ s)]
  unfold executeBody
  rw [hsource]
  rfl

/-- Without `rr` the instruction is worked through as it is, whatever the number. -/
theorem executeSingle_plain {i : Instruction} (hrr : i.rr.map AList.entries = some [])
    {source : Option String} (hsource : template i = .ok source) (t : ThreadId) (handleException : Bool)
    (qps : ℚ) (n : ℕ) (s : St ρ) : (svc.executeSingle i t handleException qps n).run s =
      (svc.around t handleException qps source (svc.doExecuteSingle i t)).run (s.perform n) := by
  rw [executeSingle_around hsource]
  refine run_bind_congr fun _ s₁ _ => run_bind_congr fun _ s₂ _ => run_bind_congr fun _ s₃ _ => run_bind_left ?_
  rw [run_attempt, run_attempt, executeProcessed_plain hrr]

/-- From states that are alike two iterations have the same result, if the record cannot show what was
left. -/
theorem around_alike {body : Run ρ (Option PowerfulResponse)} {A : Prop} {source : Option String}
    (hbody : Couples (Alike d node (Mixed d headers) N (SameResponse (A ∨ Q)))
      (EndsAlike d node headers N' A (A ∨ Q)) body body) (hQ : Q → svc.Ignores source) (qps : ℚ) :
    Couples (Alike d node (Mixed d headers) N (SameResponse (A ∨ Q)))
      (fun _ => Alike d node (AllRendered headers) N' (SameRecord Q))
      (svc.around d.thread true qps source body) (svc.around d.thread true qps source body) := by
  unfold around
  refine Couples.seq (awaitTurn_alike qps) fun _ => ?_
  refine Couples.seq sleep_alike fun _ => ?_
  refine Couples.seq (draw_alike _) fun requestStarts => ?_
  refine Couples.bind (T := fun o s u => ∃ outcome, o = .ok outcome ∧
      EndsAlike d node headers N' A (A ∨ Q) outcome s u)
    (Couples.attempt (Couples.mono (fun o _ _ hsu => ⟨o, rfl, hsu⟩) hbody))
    (fun outcome s u hsu => ?_) fun e s u hsu => ?_
  · obtain ⟨outcome', heq, hleaves⟩ := hsu
    obtain rfl := Except.ok.inj heq
    refine Couples.seq (S := fun _ => Alike d node (AllRendered headers) N' (SameRecord Q))
      (conclude_endsAlike source requestStarts outcome) (fun own => ?_) s u hleaves
    refine Couples.readBind fun s u hsu => ?_
    rw [hsu.slots.2.2]
    exact Couples.bind (S := fun _ => Alike d node (AllRendered headers) N' (SameRecord Q))
      (renderText_alike hQ) (fun _ => Couples.pure fun _ _ hsu => hsu) (fun _ _ _ hsu => hsu) s u hsu
  · obtain ⟨outcome, heq, -⟩ := hsu
    cases heq

/-- One more execution is counted. -/
theorem Alike.perform {s u : St ρ} (h : Alike d node M N E s u) (n m : ℕ) :
    Alike d node M N E (s.perform n) (u.perform m) :=
  ⟨h.world, h.left.perform n, h.right.perform m, h.slots⟩

/-- **One iteration**: from states that are alike two iterations of any numbers have the same
result, if the record cannot show what was left. -/
theorem executeSingle_alike (h : Steady svc d node rest headers call) {source : Option String}
    (hsource : template d.instruction = .ok source) (hQ : Q → svc.Ignores source) (qps : ℚ) (n m : ℕ) :
    Couples (Alike d node (Mixed d headers) (Worked svc node rest call) (SameResponse (Answers rest call ∨ Q)))
      (fun _ => Alike d node (AllRendered headers) (Worked svc node rest call) (SameRecord Q))
      (svc.executeSingle d.instruction d.thread true qps n)
      (svc.executeSingle d.instruction d.thread true qps m) := by
  intro s u hsu
  rw [executeSingle_plain h.plain hsource, executeSingle_plain h.plain hsource]
  exact around_alike (doExecuteSingle_alike h) hQ qps _ _ (hsu.perform n m)

/-! ### Runs -/

/-- The state behind the first `n` iterations of the request, which began in the world `w`. -/
def stateBefore (svc : Service ρ) (d : Delivery) (qps : ℚ) (w : World ρ) (n : ℕ) : St ρ :=
  stateAt (svc.executeSingle d.instruction d.thread true qps) n (d.begin w)

theorem begun_begin (h : Steady svc d node rest headers call) (w : World ρ) :
    Begun d node (Mixed d headers) (Worked svc node rest call) (d.begin w) := by
  refine ⟨rfl, rfl, rfl, ⟨d.requestHeaders, rfl, fun k => Or.inl rfl⟩, ⟨node.headers, rest, h.nodes, Or.inl rfl⟩,
    fun _ => ?_⟩
  show ((RenderingContext.new d.thread).getResults d.thread).invokeResult = none
  rw [RenderingContext.getResults_new]

theorem template_ok (h : Steady svc d node rest headers call) :
    ∃ source, template d.instruction = .ok source := by
  have hnodes := h.nodes
  unfold Instruction.nodes at hnodes
  unfold template
  cases htrace : d.instruction.trace with
  | none =>
      rw [htrace] at hnodes
      cases hnodes
  | some trace => exact ⟨_, rfl⟩

/-- Every iteration begins in a state of the run. -/
theorem begun_stateBefore (h : Steady svc d node rest headers call) (qps : ℚ) (w : World ρ) :
    ∀ n, Begun d node (Mixed d headers) (Worked svc node rest call) (svc.stateBefore d qps w n)
  | 0 => begun_begin h w
  | n + 1 => by
      have hn := begun_stateBefore h qps w n
      obtain ⟨source, hsource⟩ := template_ok h
      have hpair : Alike d node (Mixed d headers) (Worked svc node rest call)
          (SameResponse (Answers rest call ∨ False)) (svc.stateBefore d qps w n)
          (svc.stateBefore d qps w n) := ⟨rfl, hn, hn, Or.inr rfl⟩
      have hstep := (executeSingle_alike h hsource (fun hfalse => hfalse.elim) qps n n _ _ hpair).2
      exact hstep.left.mono (fun m hm k => Or.inr (hm k)) fun _ hns => hns

/-- The record of an iteration cannot show a response that was left: the next node is called, or the
record ignores it, or none was left. -/
def ShowsOwn (svc : Service ρ) (d : Delivery) (rest : List PowerTraceNode) (call : Option String)
    (s : St ρ) : Prop :=
  Answers rest call ∨ (∃ source, template d.instruction = .ok source ∧ svc.Ignores source) ∨
    (s.ctx.getResults d.thread).response = {}

/-- An iteration that can show only its own response begins in a state like that of a new run. -/
theorem alike_stateBefore (h : Steady svc d node rest headers call) {source : Option String}
    (hsource : template d.instruction = .ok source) {qps : ℚ} {w : World ρ} {n : ℕ}
    (hown : ShowsOwn svc d rest call (svc.stateBefore d qps w n)) :
    Alike d node (Mixed d headers) (Worked svc node rest call)
      (SameResponse (Answers rest call ∨ svc.Ignores source)) (svc.stateBefore d qps w n)
      (d.begin (svc.stateBefore d qps w n).world) := by
  refine ⟨rfl, begun_stateBefore h qps w n, begun_begin h _, ?_⟩
  rcases hown with hanswers | ⟨source', hsource', hignores⟩ | hresponse
  · exact Or.inl (Or.inl hanswers)
  · obtain rfl := Except.ok.inj (hsource.symm.trans hsource')
    exact Or.inl (Or.inr hignores)
  · refine Or.inr (hresponse.trans ?_)
    show _ = ((RenderingContext.new d.thread).getResults d.thread).response
    rw [RenderingContext.getResults_new]

end steps

/-- **Independent iterations**: in every run of a steady request an iteration whose record cannot
show what was left has the result of the first iteration of a new run, in a new context and in the
world in which it begins, and leaves the same world: the same calls, answers and draws. -/
theorem iteration_independent (svc : Service ρ) (d : Delivery) {node : PowerTraceNode}
    {rest : List PowerTraceNode} {headers : Headers} {call : Option String}
    (h : Steady svc d node rest headers call) (qps : ℚ) (w : World ρ) (n : ℕ)
    (hown : ShowsOwn svc d rest call (svc.stateBefore d qps w n)) :
    ((svc.executeSingle d.instruction d.thread true qps n).run (svc.stateBefore d qps w n)).1 =
        ((svc.executeSingle d.instruction d.thread true qps 0).run
          (d.begin (svc.stateBefore d qps w n).world)).1 ∧
      ((svc.executeSingle d.instruction d.thread true qps n).run (svc.stateBefore d qps w n)).2.world =
        ((svc.executeSingle d.instruction d.thread true qps 0).run
          (d.begin (svc.stateBefore d qps w n).world)).2.world := by
  obtain ⟨source, hsource⟩ := template_ok h
  have hpair := alike_stateBefore h hsource hown
  obtain ⟨hresult, hsame⟩ := executeSingle_alike h hsource (fun hignores => hignores) qps n 0 _ _ hpair
  exact ⟨hresult, hsame.world⟩

/-- A run on one thread that returns reports the results of these iterations. -/
theorem collectSequential_iterations {svc : Service ρ} {d : Delivery} {w : World ρ} {collectBy : String}
    {result : Json} {s : St ρ}
    (hrun : (svc.collectSequential d.instruction d.thread collectBy).run (d.begin w) = (.ok result, s)) :
    ∃ rs, report collectBy rs = .ok result ∧ rs.length = totalTimes d.instruction ∧
      ∀ n r, rs[n]? = some r →
        ((svc.executeSingle d.instruction d.thread true d.instruction.qps.toInt n).run
          (svc.stateBefore d d.instruction.qps.toInt w n)).1 = .ok r := by
  obtain ⟨rs, s₁, hrange, hreport⟩ := run_bind_inv hrun
  rw [run_ofExcept] at hreport
  obtain ⟨hreport, -⟩ := Prod.mk.inj hreport
  obtain ⟨hlength, hvalues⟩ := range_run hrange
  refine ⟨rs, hreport, hlength, fun n r hr => ?_⟩
  have hvalue := hvalues n r hr
  rw [Nat.zero_add, stateAt_check, run_check] at hvalue
  obtain ⟨r', hr', haccept⟩ := ok_of_bind hvalue
  rw [accept_ok haccept]
  exact hr'

/-! ### Requests that are steady -/

/-- A text without expressions settles as it is. -/
theorem settles_literal (h : Host ρ) (P : View → Prop) {text : String} (htext : hasExpr text = false) :
    Settles h P (some text) (some text) := by
  have hrenders : RendersTo h P (some text) (some text) :=
    fun v r _ => renderNullable_ok (render_literal h v htext r)
  exact ⟨hrenders, hrenders⟩

end Service

/-- The text does not show the last response. -/
def SeesRequest (h : Host ρ) (source : Option String) : Prop :=
  ∀ v v' r, v.SameRequest v' → renderNullable h v source r = renderNullable h v' source r

theorem HttpRemoteInvoker.renderQueries_sameRequest {h : Host ρ} {v v' : View} (hv : v.SameRequest v') :
    ∀ {es : List (Sigma fun _ : String => Option String)}, (∀ e ∈ es, SeesRequest h e.2) → ∀ r,
      renderQueries h v es r = renderQueries h v' es r
  | [], _, _ => rfl
  | e :: es, hes, r => by
      obtain ⟨he, hes⟩ := List.forall_mem_cons.mp hes
      unfold renderQueries
      rw [he v v' r hv]
      cases renderNullable h v' e.2 r with
      | mk out r₁ =>
          cases out with
          | error e => rfl
          | ok value =>
              simp only
              rw [renderQueries_sameRequest hv hes]

/-- The queries of the node that is called do not show the last response. -/
def QueriesSeeRequest (h : Host ρ) (sent : Instruction) : Prop :=
  ∀ n queries, sent.nodes.head? = some n → n.queries = some queries →
    ∀ e ∈ queries.entries, SeesRequest h e.2

/-- Then a call over HTTP sees only the request. -/
theorem Http.send_sameRequest (http : Http) (hosts : ℕ → Host ρ) (p : ℕ) {sent : Instruction}
    (hsent : QueriesSeeRequest (hosts p) sent) {v v' : View} (hv : v.SameRequest v') (r : ρ) :
    (http.protocol hosts p).send sent v r = (http.protocol hosts p).send sent v' r := by
  have hrequest : HttpRemoteInvoker.request (hosts p) http sent v r =
      HttpRemoteInvoker.request (hosts p) http sent v' r := by
    unfold HttpRemoteInvoker.request
    cases hnode : sent.nodes.head? with
    | none => rfl
    | some n =>
        simp only
        cases n.headers with
        | none => rfl
        | some own =>
            cases hqueries : n.queries with
            | none => rfl
            | some queries =>
                simp only
                rw [HttpRemoteInvoker.renderQueries_sameRequest hv (hsent n queries hnode hqueries)]
  unfold protocol
  simp only [hrequest]

theorem Network.invoker_sameRequest (net : Network ρ) (n : ℕ) {protocol : Protocol ρ} {sent : Instruction}
    {v v' : View} (hsend : ∀ r, protocol.send sent v r = protocol.send sent v' r) (w : World ρ) :
    net.invoker n protocol sent v w = net.invoker n protocol sent v' w := by
  cases n with
  | zero => rfl
  | succ n =>
      unfold invoker
      rw [hsend]

/-! ### An iteration that is not independent -/

/-- A process whose random numbers come from a counter. -/
def Host.counting : Host ℕ where
  getProperty _ := none
  getenv _ := none
  environment _ := none
  nextInt r := (r, r + 1)
  nextIntBelow n r := (r % n, r + 1)
  nextIntBelow_lt _ _ h := Nat.mod_lt _ h
  nanoTime r := (0, r)
  formatNow _ r := (none, r)
  identityText r := ("", r)
  doubleText _ := "0.0"
  parseDouble _ := none
  statusName _ := none
  decodeBytes _ := ""

/-- A request to call `call` over HTTP, twice. -/
def twiceDelivery (call : String) : Delivery where
  process := 0
  thread := 0
  instruction :=
    { trace := some [{}, { call := some call }]
      times := 2
      collectBy := some "list"
      traceNodeTmpl := some "ok"
      log := false }
  requestHeaders := AList.singleton "color" (some "red")
  path := "/execute"
  params := ∅
  method := "POST"

/-- A process that speaks HTTP. -/
def httpService : Service Unit := (Http.processes Http.sample).service 1 0

def randomService : Service ℕ where
  host := .counting
  invokers name := if name = "http" then some fun _ _ w => (.ok {}, w) else none

/-- The targets that are called. -/
def calledTargets {σ : Type} (w : World σ) : List (Option String) :=
  (w.log.filterMap Event.sent).map fun sent => sent.nodes.head?.bind PowerTraceNode.call

namespace Service

theorem steady_sample : Steady httpService (twiceDelivery "b") {} [{ call := some "b" }]
    (AList.singleton "color" (some "red")) (some "b") := by
  refine ⟨rfl, rfl, fun k hk => hk, fun k value hk => ?_, fun n hn => ?_, fun n hn _ => ?_,
    fun n invoker hn hinvoker _ v v' w hv => ?_⟩
  · have hmem : k ∈ (twiceDelivery "b").requestHeaders := AList.lookup_isSome.mp (hk ▸ rfl)
    obtain rfl : k = "color" := List.mem_singleton.mp (AList.mem_keys.mp hmem)
    obtain rfl : some "red" = value := Option.some.inj hk
    exact ⟨some "red", rfl, settles_literal _ _ (by decide)⟩
  · obtain rfl := Option.some.inj hn
    rfl
  · obtain rfl := Option.some.inj hn
    exact ⟨settles_literal _ _ (by decide), by decide⟩
  · obtain rfl := Option.some.inj hn
    have htable : httpService.invokers "http" = some invoker := hinvoker
    obtain rfl := Option.some.inj htable
    refine Network.invoker_sameRequest _ 1 (Http.send_sameRequest _ _ 0 ?_ hv) w
    intro n queries hn hqueries e he
    obtain rfl := Option.some.inj hn
    obtain rfl : ∅ = queries := Option.some.inj hqueries
    cases he

theorem iteration_independent_sample :
    ((httpService.executeSingle (twiceDelivery "b").instruction 0 true 0 1).run
        (httpService.stateBefore (twiceDelivery "b") 0 { rand := () } 1)).1 =
      ((httpService.executeSingle (twiceDelivery "b").instruction 0 true 0 0).run
        ((twiceDelivery "b").begin (httpService.stateBefore (twiceDelivery "b") 0 { rand := () } 1).world)).1 :=
  (iteration_independent httpService (twiceDelivery "b") steady_sample 0 { rand := () } 1
    (Or.inl ⟨List.cons_ne_nil _ _, rfl⟩)).1

/-- A request to a random target. -/
def randomDelivery : Delivery := twiceDelivery "{{randomInt(2)}}"

/-- The call is rendered once: the second iteration calls the target of the first one, and a new
run with the same draws calls another one. -/
theorem iteration_differs :
    calledTargets ((randomService.executeSingle randomDelivery.instruction 0 true 0 1).run
      (randomService.stateBefore randomDelivery 0 { rand := 0 } 1)).2.world = [some "0", some "0"] ∧
    calledTargets ((randomService.executeSingle randomDelivery.instruction 0 true 0 0).run
      (randomDelivery.begin (randomService.stateBefore randomDelivery 0 { rand := 0 } 1).world)).2.world =
        [some "0", some "1"] ∧
    ¬ ∀ (svc : Service ℕ) (d : Delivery) (w : World ℕ) (n : ℕ),
      d.instruction.rr.map AList.entries = some [] → d.instruction.threads = 1 →
        ((svc.executeSingle d.instruction d.thread true 0 n).run (svc.stateBefore d 0 w n)).2.world =
          ((svc.executeSingle d.instruction d.thread true 0 0).run
            (d.begin (svc.stateBefore d 0 w n).world)).2.world := by
  have hrun : calledTargets ((randomService.executeSingle randomDelivery.instruction 0 true 0 1).run
      (randomService.stateBefore randomDelivery 0 { rand := 0 } 1)).2.world = [some "0", some "0"] := by
    decide +kernel
  have hnew : calledTargets ((randomService.executeSingle randomDelivery.instruction 0 true 0 0).run
      (randomDelivery.begin (randomService.stateBefore randomDelivery 0 { rand := 0 } 1).world)).2.world =
        [some "0", some "1"] := by decide +kernel
  refine ⟨hrun, hnew, fun hclaim => ?_⟩
  have hworld := hclaim randomService randomDelivery { rand := 0 } 1 rfl rfl
  have hsame : [some "0", some "0"] = [some "0", some "1"] :=
    hrun.symm.trans ((congrArg calledTargets hworld).trans hnew)
  exact absurd hsame (by decide)

end Service

end Powerful
