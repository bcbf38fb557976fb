import Mathlib
import Powerful.Amplification
import Powerful.DubboCalls

/-! # Propagated headers

A hop looks up the listed headers in the request it received, and puts them into the headers of
the node it executes (`propagateHeaders`).  The request it sends has the headers of the node behind
that one.  Nothing that a run of a hop does reaches these: `execute_sends` says that every request
of a hop has the headers of the next node as the executed instruction has them.

`propagates_iff` says when a request is as the propagation of headers should make it all the
same. -/

namespace Powerful

open Resumption Prog

variable {ρ : Type}

/-! ### The requests of a hop -/

/-- The headers of the next node. -/
def nextHeaders (ns : List PowerTraceNode) : Option Headers := ns[1]?.bind PowerTraceNode.headers

namespace Service

/-- The service, with a log of its own calls only. -/
def alone (svc : Service ρ) : Service ρ :=
  { svc with invokers := fun name => (svc.invokers name).map fun invoker sent v w =>
      ((invoker sent v w).1, { (invoker sent v w).2 with log := w.log }) }

/-- The hop that receives `d` hands `sent` to an invoker. -/
def Requests (svc : Service ρ) (d : Delivery) (r : ρ) (sent : Instruction) : Prop :=
  .invocation d.instruction sent ∈
    (svc.alone.execute d.instruction d.thread (d.begin { rand := r })).2.world.log

/-- What the executions of `i` work through: `i` itself, or with `rr` a copy of it in which fields
are replaced. -/
def Executes (svc : Service ρ) (i i' : Instruction) : Prop :=
  if i.rr.map AList.entries = some [] then i' = i
  else ∃ n ns, nextHeaders ns = nextHeaders i.nodes ∧
    svc.processLoop { i with trace := some ns } n = .ok i'

variable {svc : Service ρ} {i : Instruction} {t : ThreadId}

theorem nextHeaders_modify {ns : List PowerTraceNode} {f : PowerTraceNode → PowerTraceNode}
    (hf : ∀ node, (f node).headers = node.headers) : nextHeaders (ns.modify 1 f) = nextHeaders ns := by
  unfold nextHeaders
  rw [List.getElem?_modify_eq]
  cases ns[1]? with
  | none => rfl
  | some node => exact hf node

/-- No step of an execution changes the headers of the next node. -/
theorem Quiet.nextHeaders {s s' : St ρ} (h : svc.Quiet t s s') :
    Powerful.nextHeaders s'.nodes = Powerful.nextHeaders s.nodes := by
  cases h with
  | propagated node rest headers hnodes =>
      rw [hnodes]
      rfl
  | prefixStripped c hc => exact nextHeaders_modify fun _ => rfl
  | protocolSet protocol => exact nextHeaders_modify fun _ => rfl
  | callRendered c r hr => exact nextHeaders_modify fun _ => rfl
  | _ => rfl

theorem Finishes.nextHeaders {s s' : St ρ} (h : svc.Finishes t s s') :
    Powerful.nextHeaders s'.nodes = Powerful.nextHeaders s.nodes := by
  cases h with
  | quiet h => exact h.nextHeaders
  | responseHeaderRendered node rest r headers hnodes =>
      rw [hnodes]
      rfl

/-- What the next hop gets has the headers of the next node. -/
theorem next_headers {s : St ρ} {sent : Instruction} (h : next i s = some sent) :
    sent.propagateHeaders = i.propagateHeaders ∧
      DubboRemoteInvoker.ownHeaders sent = Powerful.nextHeaders s.nodes := by
  unfold next Instruction.getNext at h
  cases hnodes : s.nodes with
  | nil =>
      simp only [Instruction.nodes, Option.getD_some, hnodes] at h
      cases h
  | cons node rest =>
      simp only [Instruction.nodes, Option.getD_some, hnodes] at h
      obtain rfl := Option.some.inj h
      refine ⟨rfl, ?_⟩
      cases rest <;> rfl

/-- A request of a run of `i`, with the headers of the next node. -/
def HasNextHeaders (svc : Service ρ) (i : Instruction) (e : Event) : Prop :=
  ∃ sent i', e = .invocation i sent ∧ svc.Executes i i' ∧
    sent.propagateHeaders = i'.propagateHeaders ∧
    DubboRemoteInvoker.ownHeaders sent = Powerful.nextHeaders i'.nodes

/-- The invariant of a run of `i` whose nodes have the headers `own` next. -/
def Sending (svc : Service ρ) (i : Instruction) (own : Option Headers) (s : St ρ) : Prop :=
  Powerful.nextHeaders s.nodes = own ∧ s.request = i ∧ ∀ e ∈ s.world.log, svc.HasNextHeaders i e

theorem Finishes.sending {own : Option Headers} {s s' : St ρ} (h : svc.alone.Finishes t s s')
    (hs : svc.Sending i own s) : svc.Sending i own s' := by
  obtain ⟨-, hrequest, hlog⟩ := h.keepsLength
  refine ⟨h.nextHeaders.trans hs.1, hrequest.trans hs.2.1, ?_⟩
  rw [hlog]
  exact hs.2.2

theorem invoke_sending {i' : Instruction} (hi' : svc.Executes i i') {protocol : String}
    {invoker : RemoteInvoker ρ} (htable : svc.alone.invokers protocol = some invoker) :
    Within (svc.Sending i (Powerful.nextHeaders i'.nodes)) (fun _ => 0) (invoke i' t invoker) 0 := by
  obtain ⟨invoker', -, rfl⟩ := Option.map_eq_some_iff.mp htable
  refine Within.zero (Steps.atomic fun s hs => ?_) 0
  split
  · exact ⟨hs, le_refl 0⟩
  · rename_i sent hsent
    obtain ⟨hpropagate, hown⟩ := next_headers hsent
    refine ⟨⟨hs.1, hs.2.1, fun e he => ?_⟩, le_refl 0⟩
    rcases List.mem_append.mp he with he | he
    · exact hs.2.2 e he
    · rw [List.mem_singleton.mp he, hs.2.1]
      exact ⟨sent, i', rfl, hi', hpropagate, hown.trans hs.1⟩

/-- **Requests**: whatever a run of a hop does, its requests have the headers of the next node. -/
theorem execute_sends {s : St ρ} (hs : svc.Sending i (Powerful.nextHeaders i.nodes) s) :
    svc.Sending i (Powerful.nextHeaders i.nodes) (svc.alone.execute i t s).2 := by
  have hfinishes : ∀ own t s s', svc.alone.Finishes t s s' → svc.Sending i own s →
      svc.Sending i own s' ∧ 0 ≤ 0 := fun _ _ _ _ h hs => ⟨h.sending hs, le_refl 0⟩
  have hexecution : ∀ i' t, svc.Executes i i' →
      Within (svc.Sending i (Powerful.nextHeaders i'.nodes)) (fun _ => 0)
        (svc.alone.doExecuteSingle i' t) 0 := fun i' t hi' =>
    doExecuteSingle_within (fun s s' h => hfinishes _ t s s' (.quiet h))
      fun _ _ _ _ _ htable => invoke_sending hi' htable
  have hsingle : ∀ t handleException qps n, n < rounds i →
      Within (svc.Sending i (Powerful.nextHeaders i.nodes)) (fun _ => 0)
        (svc.alone.executeSingle i t handleException qps n) (0 + 0) := by
    intro t handleException qps n _
    refine executeSingle_within (fun s s' h => hfinishes _ t s s' (.quiet h))
      (fun s hs => ⟨hs, le_refl 0⟩) ?_
    refine executeProcessed_within (fun hrr => hexecution i t ?_) fun hrr s i' hs hi' => ?_
    · rw [Executes, if_pos hrr]
    · have hexecutes : svc.Executes i i' := by
        rw [Executes, if_neg hrr]
        exact ⟨n, s.nodes, hs.1, hi'⟩
      refine Within.withCopy (J := svc.Sending i (Powerful.nextHeaders i'.nodes)) ?_ ?_ ?_ ?_
        (hexecution i' t hexecutes) i'.nodes s ⟨rfl, hs.2⟩
      · exact fun _ => rfl
      · exact fun _ _ _ hJ hI => ⟨hJ.1, hI.2⟩
      · exact fun _ _ hI hJ => ⟨hI.1, hJ.2⟩
      · exact fun _ _ => rfl
  exact (execute_within (fun t s s' h => hfinishes _ t s s' (.quiet h)) hsingle
    (fun t s s' h => hfinishes _ t s s' h) hs).1

/-- All that a hop logs are its requests. -/
theorem hasNextHeaders (svc : Service ρ) (d : Delivery) (r : ρ) :
    ∀ e ∈ (svc.alone.execute d.instruction d.thread (d.begin { rand := r })).2.world.log,
      svc.HasNextHeaders d.instruction e := by
  have hstart : svc.Sending d.instruction (Powerful.nextHeaders d.instruction.nodes)
      (d.begin { rand := r }) := by
    refine ⟨rfl, rfl, fun e he => ?_⟩
    cases he
  exact (execute_sends hstart).2.2

/-- A request of a hop has the list and the next headers of an instruction that the hop executes. -/
theorem Requests.executes {d : Delivery} {r : ρ} {sent : Instruction} (h : svc.Requests d r sent) :
    ∃ i', svc.Executes d.instruction i' ∧ sent.propagateHeaders = i'.propagateHeaders ∧
      DubboRemoteInvoker.ownHeaders sent = Powerful.nextHeaders i'.nodes := by
  obtain ⟨sent', i', heq, hexecutes, hpropagate, hown⟩ := svc.hasNextHeaders d r _ h
  obtain ⟨-, rfl⟩ := Event.invocation.inj heq
  exact ⟨i', hexecutes, hpropagate, hown⟩

end Service

/-! ### What is put on the wire -/

/-- What a call of the first node of `sent` puts on the wire: its fields, and what the thread had
left to be sent before the call. -/
inductive OnWire (h : Host ρ) (sent : Instruction) :
    Wire → Headers → List (String × Option String) → Prop
  | http {http : Http} {v : View} {r r' : ρ} {req : HttpRequest}
      (hreq : HttpRemoteInvoker.request h http sent v r = (.ok req, r')) :
      OnWire h sent .http ∅ req.headers
  | dubbo {inv : DubboRemoteInvoker} {arrays : ArrayDiff} {ctx : RpcContext} {target : DubboTarget}
      {carried : Headers} (hcall : (inv.invoke h arrays sent ctx).call = some (target, carried)) :
      OnWire h sent .dubbo ctx.attachments (headerFields carried)

/-- The fields are made of the headers of the called node, and of what was left. -/
theorem OnWire.fields {h : Host ρ} {sent : Instruction} {w : Wire} {left : Headers}
    {fields : List (String × Option String)} (hwire : OnWire h sent w left fields) :
    ∃ own, DubboRemoteInvoker.ownHeaders sent = some own ∧
      ((w = .http ∧ fields = HttpRemoteInvoker.headers own) ∨
        (w = .dubbo ∧ fields = headerFields (DubboRemoteInvoker.attach own left))) := by
  cases hwire with
  | http hreq =>
      obtain ⟨node, own, queries, params, hnode, hown, -, -, hbuild⟩ :=
        HttpRemoteInvoker.request_ok _ _ hreq
      obtain ⟨carried, -, -, -, rfl⟩ := (HttpRemoteInvoker.build_iff _ _).mp hbuild
      refine ⟨own, ?_, Or.inl ⟨rfl, rfl⟩⟩
      unfold DubboRemoteInvoker.ownHeaders Instruction.currentNode
      rw [hnode, Option.bind_some, hown]
  | dubbo hcall =>
      rename_i inv arrays ctx target carried
      rcases inv.invoke_cases h arrays sent ctx with
        ⟨-, hinvoke⟩ | ⟨own, hown, ⟨-, hnocall, -⟩ | ⟨-, ⟨target', hmade⟩, -⟩⟩
      · rw [hinvoke] at hcall
        cases hcall
      · rw [hnocall] at hcall
        cases hcall
      · obtain ⟨-, rfl⟩ := Prod.mk.inj (Option.some.inj (hmade.symm.trans hcall))
        exact ⟨own, hown, Or.inr ⟨rfl, rfl⟩⟩

/-- A field that was set was there before, or is one of the entries. -/
theorem mem_foldl_setHeader {f : String × Option String} :
    ∀ (es : List (Sigma fun _ : String => Option String)) {fields : List (String × Option String)},
      f ∈ es.foldl (fun fields e => setHeader e.1 e.2 fields) fields →
        f ∈ fields ∨ ∃ e ∈ es, (e.1, e.2) = f
  | [], _, hf => Or.inl hf
  | e :: es, fields, hf => by
      rcases mem_foldl_setHeader es hf with hset | ⟨e', he', hfield⟩
      · rcases List.mem_append.mp hset with hold | hnew
        · exact Or.inl (List.mem_of_mem_filter hold)
        · exact Or.inr ⟨e, List.mem_cons_self, (List.mem_singleton.mp hnew).symm⟩
      · exact Or.inr ⟨e', List.mem_cons_of_mem _ he', hfield⟩

namespace HttpRemoteInvoker

/-- A field of a request is the content type, or a header of the node under another name. -/
theorem mem_headers {own : Headers} {f : String × Option String} (hf : f ∈ headers own) :
    f = ("Content-Type", some contentType) ∨
      (lowerName f.1 ≠ lowerName "Content-Type" ∧ own.lookup f.1 = some f.2) := by
  rcases List.mem_append.mp hf with hown | htype
  · obtain ⟨hmem, hname⟩ := List.mem_filter.mp hown
    refine Or.inr ⟨by simpa [lowerName] using hname, ?_⟩
    rcases mem_foldl_setHeader own.entries hmem with hnone | ⟨e, he, rfl⟩
    · cases hnone
    · exact AList.mem_lookup_iff.mpr he
  · exact Or.inl (List.mem_singleton.mp htype)

theorem contentType_mem_headers (own : Headers) : ("Content-Type", some contentType) ∈ headers own :=
  List.mem_append_right _ List.mem_cons_self

end HttpRemoteInvoker

/-! ### Propagation -/

/-- The names of a comma-separated list. -/
def listedNames (propagate : Option String) : List String :=
  match propagate with
  | none => []
  | some names => if names = "" then [] else split ',' names

/-- What the propagation of headers is to achieve: each listed header that was received is carried
with the value of the called node if that has one, and with the received value if not; and each
field is a header of the called node, the content type that the protocol sets, or a listed header
as it was received. -/
structure Propagates (w : Wire) (listed : List String) (received own : Headers)
    (fields : List (String × Option String)) : Prop where
  carried : ∀ name ∈ listed, ∀ value, received.lookup name = some value →
    ∃ f ∈ fields, w.SameName f.1 name ∧
      ((∃ k, w.SameName k name ∧ own.lookup k = some f.2) ∨
        (¬ (∃ k ∈ own, w.SameName k name) ∧ f.2 = value))
  only : ∀ f ∈ fields, (∃ k, w.SameName f.1 k ∧ own.lookup k = some f.2) ∨
    (w = .http ∧ w.SameName f.1 "Content-Type") ∨
    ∃ name ∈ listed, w.SameName f.1 name ∧ received.lookup name = some f.2

/-- A header that an HTTP request carries as it should, though nothing is propagated: one that the
called node has itself, or the content type if it is to be the one that is always sent. -/
def CarriedByHttp (own : Headers) (name : String) (value : Option String) : Prop :=
  if lowerName name = lowerName "Content-Type" then
    (∃ k, lowerName k = lowerName name ∧ own.lookup k = some (some HttpRemoteInvoker.contentType)) ∨
      (¬ (∃ k ∈ own, lowerName k = lowerName name) ∧ value = some HttpRemoteInvoker.contentType)
  else ∃ k ∈ own, lowerName k = lowerName name

/-- A header that a Dubbo call carries as it should: one that the called node has itself, or one
that was left with the value received. -/
def CarriedByDubbo (own left : Headers) (name : String) (value : Option String) : Prop :=
  (∃ text, own.lookup name = some (some text)) ∨ (name ∉ own ∧ left.lookup name = some value)

/-- What is left goes out under a name of the called node only, or as a listed header that was
received. -/
def LeavesOnly (listed : List String) (received own left : Headers) : Prop :=
  ∀ k value, left.lookup k = some value → k ∉ own → k ∈ listed ∧ received.lookup k = some value

/-- The listed headers are carried, although they are not propagated. -/
def CarriedAnyway (w : Wire) (listed : List String) (received own left : Headers) : Prop :=
  match w with
  | .http => ∀ name ∈ listed, ∀ value, received.lookup name = some value → CarriedByHttp own name value
  | _ => (∀ name ∈ listed, ∀ value, received.lookup name = some value →
      CarriedByDubbo own left name value) ∧ LeavesOnly listed received own left

theorem propagates_http_iff {listed : List String} {received own : Headers} (left : Headers) :
    Propagates .http listed received own (HttpRemoteInvoker.headers own) ↔
      CarriedAnyway .http listed received own left := by
  constructor
  · intro h name hname value hvalue
    obtain ⟨f, hf, hsame, hcarried⟩ := h.carried name hname value hvalue
    unfold CarriedByHttp
    rcases HttpRemoteInvoker.mem_headers hf with rfl | ⟨hother, hown⟩
    · rw [if_pos hsame.symm]
      rcases hcarried with hset | ⟨hfree, hreceived⟩
      · exact Or.inl hset
      · exact Or.inr ⟨hfree, hreceived.symm⟩
    · have htype : lowerName name ≠ lowerName "Content-Type" := by
        rw [← show lowerName f.1 = lowerName name from hsame]
        exact hother
      rw [if_neg htype]
      refine ⟨f.1, AList.lookup_isSome.mp ?_, hsame⟩
      rw [hown]
      rfl
  · intro h
    refine ⟨fun name hname value hvalue => ?_, fun f hf => ?_⟩
    · have hcarried := h name hname value hvalue
      unfold CarriedByHttp at hcarried
      split at hcarried
      · rename_i htype
        refine ⟨_, HttpRemoteInvoker.contentType_mem_headers own, htype.symm, ?_⟩
        rcases hcarried with hset | ⟨hfree, hreceived⟩
        · exact Or.inl hset
        · exact Or.inr ⟨hfree, hreceived.symm⟩
      · rename_i htype
        obtain ⟨k, hk, hsame⟩ := hcarried
        obtain ⟨f, hf, hfield⟩ := HttpRemoteInvoker.exists_field hk
        have hname : lowerName f.1 = lowerName name := hfield.trans hsame
        refine ⟨f, hf, hname, Or.inl ⟨f.1, hname, ?_⟩⟩
        rcases HttpRemoteInvoker.mem_headers hf with rfl | ⟨-, hown⟩
        · exact absurd hname.symm htype
        · exact hown
    · rcases HttpRemoteInvoker.mem_headers hf with rfl | ⟨-, hown⟩
      · exact Or.inr (Or.inl ⟨rfl, rfl⟩)
      · exact Or.inl ⟨f.1, rfl, hown⟩

theorem propagates_dubbo_iff {listed : List String} {received own left : Headers} :
    Propagates .dubbo listed received own (headerFields (DubboRemoteInvoker.attach own left)) ↔
      CarriedAnyway .dubbo listed received own left := by
  have hfields : ∀ k value, (k, value) ∈ headerFields (DubboRemoteInvoker.attach own left) ↔
      (own.lookup k).elim (left.lookup k) (Option.map some) = some value := by
    intro k value
    rw [mem_headerFields, DubboRemoteInvoker.lookup_attach_eq]
  constructor
  · intro h
    refine ⟨fun name hname value hvalue => ?_, fun k value hk hown => ?_⟩
    · obtain ⟨⟨k, sent⟩, hf, rfl, hcarried⟩ := h.carried name hname value hvalue
      rw [hfields] at hf
      rcases hcarried with ⟨k', rfl, hset⟩ | ⟨hfree, rfl⟩
      · rw [hset, Option.elim_some] at hf
        obtain ⟨text, rfl, -⟩ := Option.map_eq_some_iff.mp hf
        exact Or.inl ⟨text, hset⟩
      · have hown : k ∉ own := fun hmem => hfree ⟨k, hmem, rfl⟩
        rw [AList.lookup_eq_none.mpr hown, Option.elim_none] at hf
        exact Or.inr ⟨hown, hf⟩
    · have hf : (k, value) ∈ headerFields (DubboRemoteInvoker.attach own left) := by
        rw [hfields, AList.lookup_eq_none.mpr hown, Option.elim_none]
        exact hk
      rcases h.only (k, value) hf with ⟨k', rfl, hset⟩ | ⟨hwire, -⟩ | ⟨name, hname, rfl, hreceived⟩
      · rw [AList.lookup_eq_none.mpr hown] at hset
        cases hset
      · cases hwire
      · exact ⟨hname, hreceived⟩
  · rintro ⟨hcarried, hleft⟩
    refine ⟨fun name hname value hvalue => ?_, fun ⟨k, value⟩ hf => ?_⟩
    · rcases hcarried name hname value hvalue with ⟨text, hset⟩ | ⟨hown, hk⟩
      · refine ⟨(name, some text), ?_, rfl, Or.inl ⟨name, rfl, hset⟩⟩
        rw [hfields, hset]
        rfl
      · refine ⟨(name, value), ?_, rfl, Or.inr ⟨?_, rfl⟩⟩
        · rw [hfields, AList.lookup_eq_none.mpr hown, Option.elim_none]
          exact hk
        · rintro ⟨k, hmem, rfl⟩
          exact hown hmem
    · rw [hfields] at hf
      cases hset : own.lookup k with
      | none =>
          rw [hset, Option.elim_none] at hf
          obtain ⟨hname, hreceived⟩ := hleft k value hf (AList.lookup_eq_none.mp hset)
          exact Or.inr (Or.inr ⟨k, hname, rfl, hreceived⟩)
      | some own' =>
          rw [hset, Option.elim_some] at hf
          obtain ⟨text, rfl, rfl⟩ := Option.map_eq_some_iff.mp hf
          exact Or.inl ⟨k, rfl, hset⟩

/-- **Propagation of headers**: a request of a hop is as the propagation should make it if and only
if its called node has the listed headers that were received, or they are sent for another reason. -/
theorem propagates_iff (svc : Service ρ) (d : Delivery) (r : ρ) {sent : Instruction}
    (hsent : svc.Requests d r sent) {w : Wire} {left : Headers}
    {fields : List (String × Option String)} (hwire : OnWire svc.host sent w left fields) :
    ∃ i' own, svc.Executes d.instruction i' ∧ sent.propagateHeaders = i'.propagateHeaders ∧
      nextHeaders i'.nodes = some own ∧
      (Propagates w (listedNames i'.propagateHeaders) d.requestHeaders own fields ↔
        CarriedAnyway w (listedNames i'.propagateHeaders) d.requestHeaders own left) := by
  obtain ⟨i', hexecutes, hlist, hnext⟩ := hsent.executes
  obtain ⟨own, hown, ⟨rfl, rfl⟩ | ⟨rfl, rfl⟩⟩ := hwire.fields
  · exact ⟨i', own, hexecutes, hlist, hnext.symm.trans hown, propagates_http_iff _⟩
  · exact ⟨i', own, hexecutes, hlist, hnext.symm.trans hown, propagates_dubbo_iff⟩

/-! ### A header that is not propagated -/

/-- An instruction that lists a header, to be called at its second node. -/
def colorInstruction (trace : List PowerTraceNode) : Instruction where
  trace := some trace
  propagateHeaders := some "color"
  collectBy := some "list"
  traceNodeTmpl := some "ok"
  log := false

/-- It is received with the header that it lists. -/
def colorDelivery : Delivery where
  process := 0
  thread := 0
  instruction := colorInstruction [{}, { call := some "b" }]
  requestHeaders := AList.singleton "color" (some "red")
  path := "/execute"
  params := ∅
  method := "POST"

/-- A process that speaks HTTP, with calls followed once. -/
def colorService : Service Unit := (Http.processes Http.sample).service 1 0

/-- The request for the first node of an instruction, as the process makes it. -/
def httpRequest (sent : Instruction) : Except Exc HttpRequest × Unit :=
  HttpRemoteInvoker.request colorService.host Http.sample sent ⟨some ∅, "", ∅, {}⟩ ()

theorem color_requests : ∃ sent req, colorService.Requests colorDelivery () sent ∧
    httpRequest sent = (.ok req, ()) := by
  have hany : (colorService.alone.execute colorDelivery.instruction colorDelivery.thread
      (colorDelivery.begin { rand := () })).2.world.log.any
        (fun e => e.sent.any fun sent => (httpRequest sent).1.isOk) = true := by decide +kernel
  obtain ⟨e, he, hsent⟩ := List.any_eq_true.mp hany
  obtain ⟨sent, -, rfl, -⟩ := colorService.hasNextHeaders colorDelivery () e he
  refine ⟨sent, ?_⟩
  cases hreq : httpRequest sent with
  | mk out r =>
      cases out with
      | error error =>
          simp only [Event.sent, Option.any_some, hreq] at hsent
          cases hsent
      | ok req => exact ⟨req, he, rfl⟩

theorem propagates_iff_sample : ∃ sent req, colorService.Requests colorDelivery () sent ∧
    ∃ i' own, colorService.Executes colorDelivery.instruction i' ∧
      sent.propagateHeaders = i'.propagateHeaders ∧ nextHeaders i'.nodes = some own ∧
      (Propagates .http (listedNames i'.propagateHeaders) colorDelivery.requestHeaders own
          (HttpRequest.headers req) ↔
        CarriedAnyway .http (listedNames i'.propagateHeaders) colorDelivery.requestHeaders own ∅) := by
  obtain ⟨sent, req, hsent, hreq⟩ := color_requests
  exact ⟨sent, req, hsent, propagates_iff colorService colorDelivery () hsent (.http hreq)⟩

/-- The listed header was received and the next node has no headers, but the request does not carry
it. -/
theorem header_lost : listedNames colorDelivery.instruction.propagateHeaders = ["color"] ∧
    colorDelivery.requestHeaders.lookup "color" = some (some "red") ∧
    nextHeaders colorDelivery.instruction.nodes = some ∅ ∧
    ¬ ∀ sent fields, colorService.Requests colorDelivery () sent →
      OnWire colorService.host sent .http ∅ fields →
        Propagates .http ["color"] colorDelivery.requestHeaders ∅ fields := by
  refine ⟨rfl, rfl, rfl, fun hclaim => ?_⟩
  obtain ⟨sent, req, hsent, hreq⟩ := color_requests
  have hwire : OnWire colorService.host sent .http ∅ req.headers := .http hreq
  obtain ⟨i', hexecutes, -, hnext⟩ := hsent.executes
  obtain rfl : i' = colorDelivery.instruction := hexecutes
  have hheaders : req.headers = HttpRemoteInvoker.headers ∅ := by
    obtain ⟨own, hown, ⟨-, hfields⟩ | ⟨hdubbo, -⟩⟩ := hwire.fields
    · obtain rfl : ∅ = own := Option.some.inj (hnext.symm.trans hown)
      exact hfields
    · cases hdubbo
  have hpropagates := hclaim sent req.headers hsent hwire
  rw [hheaders, propagates_http_iff ∅] at hpropagates
  have hcarried := hpropagates "color" List.mem_cons_self (some "red") rfl
  unfold CarriedByHttp at hcarried
  rw [if_neg (by decide)] at hcarried
  obtain ⟨k, hk, -⟩ := hcarried
  exact AList.notMem_empty k hk

end Powerful
