import Mathlib
import Powerful.Substitutions

/-! # Runs with `rr`

The iterations of a request with `rr` share its context, but not its nodes, and their records are
made with the template of the request.  `Substitutes` is the condition on an iteration under which
none of this shows, and nothing is sent that carries `rr`.  `iteration_substituted` says that such an
iteration does what the first one of a new run of its substituted copy does, without `rr`. -/

namespace Powerful

open Resumption Prog

variable {ρ : Type}

namespace Service

/-! ### What an execution does around its body -/

/-- A relation between states of the same world, which draws keep. -/
structure SharesWorld (R : St ρ → St ρ → Prop) : Prop where
  world : ∀ {s u}, R s u → s.world = u.world
  withRand : ∀ {s u}, R s u → ∀ r, R (s.withRand r) (u.withRand r)

/-- Besides, the context is the same, and what the thread `t` writes to its slot keeps the relation. -/
structure Unseen (t : ThreadId) (R : St ρ → St ρ → Prop) : Prop extends SharesWorld R where
  ctx : ∀ {s u}, R s u → s.ctx = u.ctx
  setSlot : ∀ {s u}, R s u → ∀ slot, R (s.withCtx (s.ctx.setSlot t slot)) (u.withCtx (u.ctx.setSlot t slot))

section unseen
variable {svc : Service ρ} {t : ThreadId} {R R' : St ρ → St ρ → Prop} (hR : Unseen t R) (hR' : Unseen t R')

theorem Unseen.pure {α : Type} (a : α) : Couples R (fun _ => R) (.pure a : Run ρ α) (.pure a) :=
  Couples.pure fun _ _ h => h

theorem Unseen.throw {α : Type} (e : Exc) : Couples R (fun _ => R) (.throw e : Run ρ α) (.throw e) :=
  Couples.throw fun _ _ h => h

theorem Unseen.sleep : Couples R (fun o s u => (∃ a, o = .ok a) ∧ R s u) (sleep : Run ρ Unit) sleep :=
  Couples.modify fun _ _ h => ⟨⟨(), rfl⟩, h⟩

theorem SharesWorld.draw (hR : SharesWorld R) {α : Type} (f : ρ → α × ρ) :
    Couples R (fun o s u => (∃ a, o = .ok a) ∧ R s u) (draw f : Run ρ α) (draw f) := by
  refine Couples.atomic fun s u h => ?_
  rw [← hR.world h]
  exact ⟨rfl, ⟨_, rfl⟩, hR.withRand h _⟩

include hR in
theorem Unseen.writeSlot (f : RenderingContext → Slot) :
    Couples R (fun o s u => (∃ a, o = .ok a) ∧ R s u)
      (.modify fun s => s.withCtx (s.ctx.setSlot t (f s.ctx)) : Run ρ Unit)
      (.modify fun s => s.withCtx (s.ctx.setSlot t (f s.ctx))) := by
  refine Couples.modify fun s u h => ⟨⟨(), rfl⟩, ?_⟩
  rw [← hR.ctx h]
  have hwritten := hR.setSlot h (f s.ctx)
  rw [← hR.ctx h] at hwritten
  exact hwritten

theorem SharesWorld.awaitTurn (hR : SharesWorld R) (qps : ℚ) :
    Couples R (fun o s u => (∃ a, o = .ok a) ∧ R s u) (svc.awaitTurn qps) (svc.awaitTurn qps) := by
  unfold Service.awaitTurn
  split
  · exact Couples.pure fun _ _ h => ⟨⟨(), rfl⟩, h⟩
  · exact Couples.seq (hR.draw _) fun _ => Couples.pure fun _ _ h => ⟨⟨(), rfl⟩, h⟩

include hR in
theorem Unseen.renderText (source : Option String) :
    Couples R (fun _ => R) (svc.renderText t source) (svc.renderText t source) := by
  refine Couples.atomic fun s u h => ?_
  rw [← hR.world h, ← hR.ctx h]
  exact ⟨rfl, hR.withRand h _⟩

include hR in
theorem Unseen.storeDelay (n : ℕ) :
    Couples R (fun o s u => (∃ a, o = .ok a) ∧ R s u) (svc.storeDelay t n) (svc.storeDelay t n) :=
  Couples.seq (hR.toSharesWorld.draw _) fun _ => Couples.seq (hR.writeSlot fun ctx => { ctx.getResults t with delayMillis := _ })
    fun _ => Couples.pure fun _ _ h => ⟨⟨_, rfl⟩, h⟩

include hR in
theorem Unseen.conclude (handleException : Bool) (source : Option String) (n : ℕ)
    (o : Except Exc (Option PowerfulResponse)) :
    Couples R (fun _ => R) (svc.conclude t handleException source n o)
      (svc.conclude t handleException source n o) := by
  cases o with
  | ok response => exact Couples.seq (hR.storeDelay n) fun _ => Unseen.pure _
  | error e =>
      cases handleException with
      | true =>
          exact Couples.seq (hR.writeSlot fun ctx => { ctx.getResults t with response := errorResponse e })
            fun _ => Couples.seq (hR.storeDelay n) fun _ => Unseen.pure _
      | false =>
          refine Couples.bind (T := fun _ => R) (Couples.attempt (hR.renderText source)) (fun record => ?_)
            fun _ _ _ h => h
          refine Couples.seq (hR.storeDelay n) fun _ => ?_
          cases record with
          | ok record => exact Unseen.throw _
          | error e' => exact Unseen.throw _

include hR in
theorem Unseen.invokeTestMethod (node : PowerTraceNode) :
    Couples R (fun _ => R) (svc.invokeTestMethod t node) (svc.invokeTestMethod t node) := by
  unfold Service.invokeTestMethod
  split
  · exact Unseen.pure _
  · split
    · exact Unseen.pure _
    · split
      · exact Unseen.throw _
      · refine Couples.seq (hR.toSharesWorld.draw _) fun k => ?_
        exact Couples.mono (fun _ _ _ h => h.2)
          (hR.writeSlot fun ctx => { ctx.getResults t with invokeResult := some (testMethodText k) })

theorem Unseen.delay (node : PowerTraceNode) :
    Couples R (fun _ => R) (delay node : Run ρ Unit) (delay node) := by
  unfold Service.delay
  split
  · exact Couples.mono (fun _ _ _ h => h.2) Unseen.sleep
  · exact Unseen.pure _

include hR in
theorem Unseen.errorByPercent (node : PowerTraceNode) :
    Couples R (fun _ => R) (svc.errorByPercent node) (svc.errorByPercent node) := by
  unfold Service.errorByPercent
  split
  · exact Unseen.throw _
  · split
    · refine Couples.seq (hR.toSharesWorld.draw _) fun k => ?_
      split
      · exact Unseen.throw _
      · exact Unseen.pure _
    · exact Unseen.pure _

theorem Unseen.code (node : PowerTraceNode) : Couples R (fun _ => R) (svc.code node) (svc.code node) := by
  unfold Service.code
  split
  · exact Unseen.pure _
  · split
    · exact Unseen.throw _
    · exact Unseen.throw _

include hR' in
/-- Two executions whose bodies have the same outcome have the same result. -/
theorem Unseen.around (hR : SharesWorld R) {p q : Run ρ (Option PowerfulResponse)} (hbody : Couples R (fun _ => R') p q)
    (handleException : Bool) (qps : ℚ) (source : Option String) :
    Couples R (fun _ => R') (svc.around t handleException qps source p)
      (svc.around t handleException qps source q) := by
  unfold Service.around
  refine Couples.seq (hR.awaitTurn qps) fun _ => ?_
  refine Couples.seq Unseen.sleep fun _ => ?_
  refine Couples.seq (hR.draw _) fun requestStarts => ?_
  refine Couples.bind (T := fun _ => R') (Couples.attempt hbody) (fun outcome => ?_) fun _ _ _ h => h
  refine Couples.bind (hR'.conclude _ _ _ outcome) (fun own => ?_) fun _ _ _ h => h
  refine Couples.readBind fun s u h => ?_
  rw [← hR'.ctx h]
  exact Couples.bind (hR'.renderText source) (fun _ => Unseen.pure _) (fun _ _ _ h => h) s u h

end unseen

/-- A state with an invariant that writing to the world and to the thread's own slot keeps, beside
itself. -/
theorem unseen_self {I : St ρ → Prop} {t : ThreadId} (hrand : ∀ s r, I s → I (s.withRand r))
    (hslot : ∀ s slot, I s → I (s.withCtx (s.ctx.setSlot t slot))) :
    Unseen t (fun s u => s = u ∧ I s) where
  world := by rintro s u ⟨rfl, -⟩; rfl
  ctx := by rintro s u ⟨rfl, -⟩; rfl
  withRand := by
    rintro s u ⟨rfl, hs⟩ r
    exact ⟨rfl, hrand s r hs⟩
  setSlot := by
    rintro s u ⟨rfl, hs⟩ slot
    exact ⟨rfl, hslot s slot hs⟩

/-- The nodes of the second state are private; those of the first one are still `ns`. -/
def Private (ns : List PowerTraceNode) (s u : St ρ) : Prop :=
  s.nodes = ns ∧ ∃ ns', u = s.withNodes ns'

theorem unseen_private (ns : List PowerTraceNode) (t : ThreadId) :
    Unseen t (Private ns : St ρ → St ρ → Prop) where
  world := by rintro s u ⟨-, ns', rfl⟩; rfl
  ctx := by rintro s u ⟨-, ns', rfl⟩; rfl
  withRand := by
    rintro s u ⟨hs, ns', rfl⟩ r
    exact ⟨hs, ns', rfl⟩
  setSlot := by
    rintro s u ⟨hs, ns', rfl⟩ slot
    exact ⟨hs, ns', rfl⟩

/-- Besides, the private nodes are `ns'`. -/
def PrivateAre (ns ns' : List PowerTraceNode) (s u : St ρ) : Prop := s.nodes = ns ∧ u = s.withNodes ns'

theorem unseen_privateAre (ns ns' : List PowerTraceNode) (t : ThreadId) :
    Unseen t (PrivateAre ns ns' : St ρ → St ρ → Prop) where
  world := by rintro s u ⟨-, rfl⟩; rfl
  ctx := by rintro s u ⟨-, rfl⟩; rfl
  withRand := by
    rintro s u ⟨hs, rfl⟩ r
    exact ⟨hs, rfl⟩
  setSlot := by
    rintro s u ⟨hs, rfl⟩ slot
    exact ⟨hs, rfl⟩

/-- An iteration with `rr` works through the substituted copy on its own nodes. -/
theorem executeProcessed_copy {svc : Service ρ} {i copy : Instruction} {ns : List PowerTraceNode} {n : ℕ}
    (hrr : i.rr.map AList.entries ≠ some []) (hcopy : svc.processLoop { i with trace := some ns } n = .ok copy)
    (t : ThreadId) : Couples (PrivateAre ns copy.nodes) (fun _ => Private ns) (svc.executeProcessed i t n)
      (svc.doExecuteSingle copy t) := by
  rintro s u ⟨hs, rfl⟩
  unfold executeProcessed
  rw [run_bind, run_atomic, hs, hcopy]
  simp only [if_neg hrr]
  rw [run_withCopy St.nodes (fun ns s => s.withNodes ns) (fun _ _ => rfl) (fun _ => rfl) (fun _ _ _ => rfl)]
  exact ⟨rfl, hs, _, rfl⟩

/-! ### What every iteration keeps -/

/-- A state of a request: some of its headers may be rendered. -/
structure Received (d : Delivery) (headers : Headers) (s : St ρ) : Prop where
  request : s.request = d.instruction
  path : s.ctx.path = d.path
  params : s.ctx.params = d.params
  headers : ∃ m, s.ctx.requestHeaders = some m ∧ Mixed d headers m

section received
variable {svc : Service ρ} {d : Delivery} {headers : Headers} {s : St ρ}

theorem Received.withNodes (h : Received d headers s) (ns : List PowerTraceNode) :
    Received d headers (s.withNodes ns) := ⟨h.request, h.path, h.params, h.headers⟩

theorem Received.withRand (h : Received d headers s) (r : ρ) : Received d headers (s.withRand r) :=
  ⟨h.request, h.path, h.params, h.headers⟩

theorem Received.setSlot (h : Received d headers s) (t : ThreadId) (slot : Slot) :
    Received d headers (s.withCtx (s.ctx.setSlot t slot)) := ⟨h.request, h.path, h.params, h.headers⟩

theorem propagateHeaders_leads (i : Instruction) :
    Leads (Received d headers) (Received d headers) (propagateHeaders i : Run ρ Unit) := by
  intro s hs
  unfold propagateHeaders
  rw [run_atomic]
  split
  · split
    · exact hs
    · split
      · exact hs
      · simp only
        split
        · exact hs
        · exact hs.withNodes _
  · exact hs

/-- The headers are rendered one by one. -/
theorem renderHeaders_leads {t : ThreadId} {I : St ρ → Prop} (h : ∀ k, Leads I I (svc.renderHeader t k)) :
    Leads I I (svc.renderHeaders t) := by
  have hlist : ∀ ks, Leads I I (svc.renderHeaderList t ks) := by
    intro ks
    induction ks with
    | nil => exact Leads.pure (fun _ hs => hs) ()
    | cons k ks ih => exact Leads.bind (h k) fun _ => ih
  exact Leads.bind (Leads.read (fun _ hs => hs) _) fun names => hlist names

theorem renderHeader_leads (hheaders : HeadersSettle svc d headers) (k : String) :
    Leads (Received d headers) (Received d headers) (svc.renderHeader d.thread k) := by
  intro s hs
  obtain ⟨m, hm, hmixed⟩ := hs.headers
  obtain ⟨m', hrun, hmixed', -⟩ := renderHeader_run hheaders k hs.path hs.params hm hmixed
  rw [hrun]
  exact ⟨hs.request, hs.path, hs.params, m', rfl, hmixed'⟩

/-- Rendering a header changes nothing else. -/
theorem renderHeader_leads_any {node : PowerTraceNode} {N : List PowerTraceNode → Prop} (k : String) :
    Leads (Begun d node (fun _ => True) N) (Begun d node (fun _ => True) N)
      (svc.renderHeader d.thread k) := by
  refine Leads.atomic fun s hs => ?_
  split
  · exact hs
  · split
    · exact hs.withWorld _
    · rename_i value _ _
      obtain ⟨m, hm, -⟩ := hs.headers
      refine ⟨hs.request, hs.path, hs.params, ⟨m.insert k value, ?_, trivial⟩, hs.nodes, hs.invokeResult⟩
      unfold RenderingContext.putRequestHeader
      rw [hm]
      rfl

theorem callNext_leads (i : Instruction) {first n : PowerTraceNode} {tail : List PowerTraceNode}
    (hnodes : s.nodes = first :: n :: tail) (hs : Received d headers s) :
    Received d headers ((svc.callNext i d.thread).run s).2 := by
  rw [callNext_eq i d.thread hnodes]
  split
  · exact hs.withNodes _
  · split
    · exact (hs.withRand _).withNodes _
    · split
      · exact (hs.withRand _).withNodes _
      · unfold sendAndStore
        split
        · exact ⟨hs.request, hs.path, hs.params, hs.headers⟩
        · exact ⟨hs.request, hs.path, hs.params, hs.headers⟩

theorem call_leads (i : Instruction) : Leads (Received d headers) (Received d headers) (svc.call i d.thread) := by
  intro s hs
  unfold call
  rw [run_bind_ok (run_read _ s)]
  cases hnodes : s.nodes with
  | nil => exact hs
  | cons first rest =>
      cases rest with
      | nil => exact hs
      | cons n tail => exact callNext_leads i hnodes hs

theorem doExecuteSingle_leads (hheaders : HeadersSettle svc d headers) (i : Instruction) :
    Leads (Received d headers) (Received d headers) (svc.doExecuteSingle i d.thread) := by
  have hself : Unseen d.thread fun (s u : St ρ) => s = u ∧ Received d headers s :=
    unseen_self (fun _ r hs => hs.withRand r) fun _ slot hs => hs.setSlot _ slot
  refine Leads.bind (propagateHeaders_leads i) fun _ => ?_
  refine Leads.bind (renderHeaders_leads fun k => renderHeader_leads hheaders k) fun _ => ?_
  refine Leads.bind (Leads.read (fun _ hs => hs) _) fun node? => ?_
  cases node? with
  | none => exact Leads.throw (fun _ hs => hs) _
  | some node =>
      refine Leads.bind (Couples.leads (hself.invokeTestMethod node) fun _ _ _ h => h.2) fun _ => ?_
      refine Leads.bind (Couples.leads (Unseen.delay node) fun _ _ _ h => h.2) fun _ => ?_
      refine Leads.bind (Couples.leads (hself.errorByPercent node) fun _ _ _ h => h.2) fun _ => ?_
      refine Leads.bind (Couples.leads (Unseen.code node) fun _ _ _ h => h.2) fun _ => ?_
      exact call_leads i

/-- With `rr` the nodes of the request stay as they were. -/
structure Untouched (d : Delivery) (headers : Headers) (s : St ρ) : Prop extends Received d headers s where
  nodes : s.nodes = d.instruction.nodes

theorem untouched_begin (w : World ρ) : Untouched d headers (d.begin w) :=
  ⟨⟨rfl, rfl, rfl, ⟨d.requestHeaders, rfl, fun _ => Or.inl rfl⟩⟩, rfl⟩

theorem executeProcessed_leads (hheaders : HeadersSettle svc d headers)
    (hrr : d.instruction.rr.map AList.entries ≠ some []) (n : ℕ) :
    Leads (Untouched d headers) (Untouched d headers) (svc.executeProcessed d.instruction d.thread n) := by
  intro s hs
  unfold executeProcessed
  rw [run_bind, run_atomic]
  cases svc.processLoop { d.instruction with trace := some s.nodes } n with
  | error e => exact hs
  | ok copy =>
      simp only [if_neg hrr]
      rw [run_withCopy St.nodes (fun ns s => s.withNodes ns) (fun _ _ => rfl) (fun _ => rfl) (fun _ _ _ => rfl)]
      have hcopy := doExecuteSingle_leads hheaders copy _ (hs.toReceived.withNodes copy.nodes)
      exact ⟨hcopy.withNodes s.nodes, hs.nodes⟩

/-- **Step**: an iteration leaves the nodes of the request alone, whatever happens in it. -/
theorem Untouched.step (hheaders : HeadersSettle svc d headers)
    (hrr : d.instruction.rr.map AList.entries ≠ some []) {source : Option String}
    (hsource : template d.instruction = .ok source) (handleException : Bool) (qps : ℚ) (n : ℕ) :
    Leads (Untouched d headers) (Untouched d headers)
      (svc.executeSingle d.instruction d.thread handleException qps n) := by
  have hself : Unseen d.thread fun (s u : St ρ) => s = u ∧ Untouched d headers s :=
    unseen_self (fun _ r hs => ⟨hs.toReceived.withRand r, hs.nodes⟩)
      fun _ slot hs => ⟨hs.toReceived.setSlot _ slot, hs.nodes⟩
  have hbody : Couples (fun s u => s = u ∧ Untouched d headers s) (fun _ s u => s = u ∧ Untouched d headers s)
      (svc.executeProcessed d.instruction d.thread n) (svc.executeProcessed d.instruction d.thread n) := by
    rintro s u ⟨rfl, hs⟩
    exact ⟨rfl, rfl, executeProcessed_leads hheaders hrr n s hs⟩
  intro s hs
  rw [executeSingle_around hsource]
  have hbefore : Untouched d headers (s.perform n) :=
    ⟨⟨hs.request, hs.path, hs.params, hs.headers⟩, hs.nodes⟩
  exact Couples.leads (hself.around hself.toSharesWorld hbody handleException qps source) (fun _ _ _ h => h.2) _
    hbefore

/-- **Run**: every iteration begins with the nodes of the request. -/
theorem untouched_stateBefore (hheaders : HeadersSettle svc d headers)
    (hrr : d.instruction.rr.map AList.entries ≠ some []) {source : Option String}
    (hsource : template d.instruction = .ok source) (qps : ℚ) (w : World ρ) :
    ∀ n, Untouched d headers (svc.stateBefore d qps w n)
  | 0 => untouched_begin w
  | n + 1 => Untouched.step hheaders hrr hsource true qps n _
      (untouched_stateBefore hheaders hrr hsource qps w n)

end received

/-! ### Runs -/

/-- The template of the copy is rendered like that of the instruction, which is the one that is
used. -/
def SameTemplate (h : Host ρ) (i copy : Instruction) : Prop :=
  ∃ source source', template i = .ok source ∧ template copy = .ok source' ∧
    ∀ v r, renderNullable h v source r = renderNullable h v source' r

/-- The state in which a new run of `i` begins, in place of the instruction of the request; the log
still names the request. -/
def beginAs (d : Delivery) (i : Instruction) (w : World ρ) : St ρ :=
  { ({ d with instruction := i } : Delivery).begin w with request := d.instruction }

/-- An iteration that begins in `s` and works through `copy` sees nothing of the ones before it, and
its `rr` is not sent. -/
structure Faithful (svc : Service ρ) (d : Delivery) (headers : Headers) (copy : Instruction)
    (node : PowerTraceNode) (rest : List PowerTraceNode) (s : St ρ) : Prop where
  settle : HeadersSettle svc d headers
  nodes : copy.nodes = node :: rest
  carries : copy.rr.map AList.entries = some [] ∨ ¬ Sends svc (WithHeaders d headers) node rest
  sees : svc.Reaches node rest → SeesOnlyRequest svc d headers (withoutRr copy) rest
  method : CallsMethod node ∨ (s.ctx.getResults d.thread).invokeResult = none
  shows : AlwaysCalls svc d headers rest ∨
    (∃ source, template d.instruction = .ok source ∧ svc.Ignores source) ∨
    (s.ctx.getResults d.thread).response = {}

/-- The condition on iteration `n`, which begins in `s`.  The first iteration of a run is in the state
of a new one, so that only what is sent and what is recorded matter. -/
inductive Substitutes (svc : Service ρ) (d : Delivery) (copy : Instruction) (n : ℕ) (s : St ρ) : Prop
  | firstPlain (hrr : d.instruction.rr.map AList.entries = some []) (hn : n = 0)
  | plain {node : PowerTraceNode} {rest : List PowerTraceNode} {headers : Headers} {call : Option String}
      (hsteady : Steady svc d node rest headers call) (hown : ShowsOwn svc d rest call s)
  | first (hrr : d.instruction.rr.map AList.entries ≠ some [])
      (htemplate : SameTemplate svc.host d.instruction copy) (hn : n = 0)
      (hcarries : copy.rr.map AList.entries = some [] ∨
        ∃ node rest, copy.nodes = node :: rest ∧ ¬ Sends svc (OfRequest d) node rest)
  | faithful {node : PowerTraceNode} {rest : List PowerTraceNode} {headers : Headers}
      (hrr : d.instruction.rr.map AList.entries ≠ some [])
      (htemplate : SameTemplate svc.host d.instruction copy)
      (hfaithful : Faithful svc d headers copy node rest s)

section runs
variable {svc : Service ρ} {d : Delivery} {headers : Headers} {n : ℕ} {s : St ρ} {copy : Instruction}
  {node : PowerTraceNode} {rest : List PowerTraceNode}

theorem substituted_plain (hrr : d.instruction.rr.map AList.entries = some [])
    (hcopy : Substituted svc.host d.instruction n copy) : copy = d.instruction := by
  have hself := processLoop_iff.mpr hcopy
  rw [processLoop_plain hrr] at hself
  exact (Except.ok.inj hself).symm

/-- The nodes of the request are substituted, as no iteration has changed them. -/
theorem processLoop_nodes {source : Option String} (hsource : template d.instruction = .ok source)
    (hcopy : Substituted svc.host d.instruction n copy) :
    svc.processLoop { d.instruction with trace := some d.instruction.nodes } n = .ok copy := by
  obtain ⟨trace, htrace⟩ : ∃ trace, d.instruction.trace = some trace := by
    unfold template at hsource
    cases htrace : d.instruction.trace with
    | none =>
        rw [htrace] at hsource
        cases hsource
    | some trace => exact ⟨trace, rfl⟩
  have hself : { d.instruction with trace := some d.instruction.nodes } = d.instruction := by
    unfold Instruction.nodes
    rw [htrace, Option.getD_some, ← htrace]
  rw [hself]
  exact processLoop_iff.mpr hcopy

/-- Texts that are rendered alike may be exchanged. -/
theorem around_source {source source' : Option String}
    (hsame : ∀ v r, renderNullable svc.host v source r = renderNullable svc.host v source' r) (t : ThreadId)
    (handleException : Bool) (qps : ℚ) (body : Run ρ (Option PowerfulResponse)) :
    svc.around t handleException qps source body = svc.around t handleException qps source' body := by
  have htext : svc.renderText t source = svc.renderText t source' := by
    unfold renderText
    simp only [hsame]
  unfold around conclude
  rw [htext]

/-- An iteration does what working through the copy on its own nodes does. -/
theorem executeSingle_copy (hrr : d.instruction.rr.map AList.entries ≠ some [])
    (hcopy : Substituted svc.host d.instruction n copy) {source : Option String}
    (hsource : template d.instruction = .ok source) (handleException : Bool) (qps : ℚ)
    (hs : s.nodes = d.instruction.nodes) :
    ((svc.executeSingle d.instruction d.thread handleException qps n).run s).1 =
        ((svc.around d.thread handleException qps source (svc.doExecuteSingle copy d.thread)).run
          ((s.perform n).withNodes copy.nodes)).1 ∧
      ((svc.executeSingle d.instruction d.thread handleException qps n).run s).2.world =
        ((svc.around d.thread handleException qps source (svc.doExecuteSingle copy d.thread)).run
          ((s.perform n).withNodes copy.nodes)).2.world := by
  have hbefore : Unseen d.thread (PrivateAre d.instruction.nodes copy.nodes : St ρ → St ρ → Prop) :=
    unseen_privateAre _ _ _
  have hafter : Unseen d.thread (Private d.instruction.nodes : St ρ → St ρ → Prop) := unseen_private _ _
  have hbody := executeProcessed_copy hrr (processLoop_nodes hsource hcopy) d.thread
  rw [executeSingle_around hsource]
  obtain ⟨hresult, hend⟩ :=
    hafter.around hbefore.toSharesWorld hbody handleException qps source (s.perform n) _ ⟨hs, rfl⟩
  exact ⟨hresult, hafter.world hend⟩

/-- The copy begins on its own nodes. -/
theorem Faithful.begun (h : Faithful svc d headers copy node rest s) (hs : Received d headers s) (n : ℕ) :
    Begun d node (Mixed d headers) (fun ns => ns = rest) ((s.perform n).withNodes copy.nodes) := by
  refine ⟨hs.request, hs.path, hs.params, hs.headers, ⟨node.headers, rest, h.nodes, rfl⟩, fun hcalls => ?_⟩
  exact h.method.resolve_left hcalls

/-- An execution whose body works without `rr` in the same way does so as a whole. -/
theorem around_withoutRr {M : Headers → Prop} {N : List PowerTraceNode → Prop}
    (hbody : ∀ s : St ρ, Begun d node M N s →
      (svc.doExecuteSingle copy d.thread).run s = (svc.doExecuteSingle (withoutRr copy) d.thread).run s)
    (handleException : Bool) (qps : ℚ) (source : Option String) (hs : Begun d node M N s) :
    (svc.around d.thread handleException qps source (svc.doExecuteSingle copy d.thread)).run s =
      (svc.around d.thread handleException qps source (svc.doExecuteSingle (withoutRr copy) d.thread)).run s := by
  have hdraws : SharesWorld fun (s u : St ρ) => s = u ∧ Begun d node M N s := by
    refine ⟨fun h => congrArg St.world h.1, ?_⟩
    rintro s u ⟨rfl, hs⟩ r
    exact ⟨rfl, hs.withWorld _⟩
  have hself : Unseen d.thread fun (s u : St ρ) => s = u ∧ True :=
    unseen_self (fun _ _ _ => trivial) fun _ _ _ => trivial
  have hcouples : Couples (fun s u => s = u ∧ Begun d node M N s) (fun _ s u => s = u ∧ True)
      (svc.doExecuteSingle copy d.thread) (svc.doExecuteSingle (withoutRr copy) d.thread) := by
    rintro s u ⟨rfl, hs⟩
    rw [hbody s hs]
    exact ⟨rfl, rfl, trivial⟩
  obtain ⟨hresult, hstate, -⟩ := hself.around hdraws hcouples handleException qps source _ _ ⟨rfl, hs⟩
  exact Prod.ext hresult hstate

theorem Faithful.withoutRr (h : Faithful svc d headers copy node rest s) (hs : Received d headers s) (n : ℕ)
    (handleException : Bool) (qps : ℚ) (source : Option String) :
    (svc.around d.thread handleException qps source (svc.doExecuteSingle copy d.thread)).run
        ((s.perform n).withNodes copy.nodes) =
      (svc.around d.thread handleException qps source (svc.doExecuteSingle (Service.withoutRr copy) d.thread)).run
        ((s.perform n).withNodes copy.nodes) := by
  refine around_withoutRr (fun s hs => ?_) handleException qps source (h.begun hs n)
  refine doExecuteSingle_withoutRr (fun s hs => ?_) (fun _ hs => withHeaders_view hs) h.carries hs
  exact Begun.keeps (renderHeaders_alike h.settle) (fun _ => rfl) (fun _ _ _ h => h.2) hs Prod.mk.eta.symm

/-- In a new context the copy need only send nothing. -/
theorem first_withoutRr (hcarries : copy.rr.map AList.entries = some [] ∨
      ∃ node rest, copy.nodes = node :: rest ∧ ¬ Sends svc (OfRequest d) node rest) (w : World ρ)
    (handleException : Bool) (qps : ℚ) (source : Option String) :
    (svc.around d.thread handleException qps source (svc.doExecuteSingle copy d.thread)).run
        (((d.begin w).perform 0).withNodes copy.nodes) =
      (svc.around d.thread handleException qps source (svc.doExecuteSingle (withoutRr copy) d.thread)).run
        (((d.begin w).perform 0).withNodes copy.nodes) := by
  rcases hcarries with hempty | ⟨node, rest, hnodes, hsilent⟩
  · rw [withoutRr_eq_self hempty]
  have hbegun : Begun d node (fun _ => True) (fun ns => ns = rest)
      (((d.begin w).perform 0).withNodes copy.nodes) := by
    refine ⟨rfl, rfl, rfl, ⟨d.requestHeaders, rfl, trivial⟩, ⟨node.headers, rest, hnodes, rfl⟩, fun _ => ?_⟩
    show ((RenderingContext.new d.thread).getResults d.thread).invokeResult = none
    rw [RenderingContext.getResults_new]
  refine around_withoutRr (fun s hs => ?_) handleException qps source hbegun
  exact doExecuteSingle_withoutRr (renderHeaders_leads fun k => renderHeader_leads_any k)
    (fun _ hs => ofRequest_view hs) (Or.inr hsilent) hs

/-- What both iterations begin with is alike. -/
theorem Faithful.alike_begin (h : Faithful svc d headers copy node rest s) (hs : Received d headers s) (n : ℕ)
    {source : Option String} (hsource : template d.instruction = .ok source) :
    Alike d node (Mixed d headers) (fun ns => ns = rest)
      (SameResponse (AlwaysCalls svc d headers rest ∨ svc.Ignores source))
      ((s.perform n).withNodes copy.nodes) ((beginAs d (Service.withoutRr copy) s.world).perform 0) := by
  refine ⟨rfl, h.begun hs n, ?_, ?_⟩
  · refine ⟨rfl, rfl, rfl, ⟨d.requestHeaders, rfl, fun _ => Or.inl rfl⟩, ⟨node.headers, rest, h.nodes, rfl⟩,
      fun _ => ?_⟩
    show ((RenderingContext.new d.thread).getResults d.thread).invokeResult = none
    rw [RenderingContext.getResults_new]
  · rcases h.shows with hcalls | ⟨source', hsource', hignores⟩ | hresponse
    · exact Or.inl (Or.inl hcalls)
    · obtain rfl := Except.ok.inj (hsource.symm.trans hsource')
      exact Or.inl (Or.inr hignores)
    · refine Or.inr (hresponse.trans ?_)
      show _ = ((RenderingContext.new d.thread).getResults d.thread).response
      rw [RenderingContext.getResults_new]

end runs

/-- **Substitution**: in every run an iteration that meets the condition has the result of the first
iteration of a new run, without `rr` and at the same pace, of the substituted instruction, and leaves
the same world: the same requests along the whole chain, answers and draws.  A run of a single
execution does not handle exceptions. -/
theorem iteration_substituted (svc : Service ρ) (d : Delivery) (copy : Instruction) (qps : ℚ) (w : World ρ)
    (n : ℕ) (hcopy : Substituted svc.host d.instruction n copy)
    (h : Substitutes svc d copy n (svc.stateBefore d qps w n)) (handleException : Bool)
    (hhandle : handleException = true ∨ n = 0) :
    ((svc.executeSingle d.instruction d.thread handleException qps n).run (svc.stateBefore d qps w n)).1 =
        ((svc.executeSingle (withoutRr copy) d.thread handleException qps 0).run
          (beginAs d (withoutRr copy) (svc.stateBefore d qps w n).world)).1 ∧
      ((svc.executeSingle d.instruction d.thread handleException qps n).run
          (svc.stateBefore d qps w n)).2.world =
        ((svc.executeSingle (withoutRr copy) d.thread handleException qps 0).run
          (beginAs d (withoutRr copy) (svc.stateBefore d qps w n).world)).2.world := by
  cases h with
  | firstPlain hrr hn =>
      obtain rfl := substituted_plain hrr hcopy
      obtain rfl := hn
      rw [withoutRr_eq_self hrr]
      exact ⟨rfl, rfl⟩
  | plain hsteady hown =>
      obtain rfl := substituted_plain hsteady.plain hcopy
      rw [withoutRr_eq_self hsteady.plain]
      rcases hhandle with rfl | rfl
      · obtain ⟨source, hsource⟩ := template_ok hsteady
        obtain ⟨hresult, hsame⟩ := executeSingle_alike hsteady hsource (fun hignores => hignores) qps n 0 _ _
          (alike_stateBefore hsteady hsource hown)
        exact ⟨hresult, hsame.world⟩
      · exact ⟨rfl, rfl⟩
  | first hrr htemplate hn hcarries =>
      obtain ⟨source, source', hsource, hsource', hsame⟩ := htemplate
      obtain rfl := hn
      have hplain : (withoutRr copy).rr.map AList.entries = some [] := rfl
      obtain ⟨hresult, hworld⟩ :=
        executeSingle_copy (s := svc.stateBefore d qps w 0) hrr hcopy hsource handleException qps rfl
      rw [hresult, hworld, executeSingle_plain hplain hsource', ← around_source hsame]
      show ((svc.around d.thread handleException qps source (svc.doExecuteSingle copy d.thread)).run
          (((d.begin w).perform 0).withNodes copy.nodes)).1 = _ ∧
        ((svc.around d.thread handleException qps source (svc.doExecuteSingle copy d.thread)).run
          (((d.begin w).perform 0).withNodes copy.nodes)).2.world = _
      rw [first_withoutRr hcarries w handleException qps source]
      exact ⟨rfl, rfl⟩
  | @faithful node rest headers hrr htemplate hfaithful =>
      obtain ⟨source, source', hsource, hsource', hsame⟩ := htemplate
      have hs := untouched_stateBefore hfaithful.settle hrr hsource qps w n
      obtain ⟨hresult, hworld⟩ := executeSingle_copy hrr hcopy hsource handleException qps hs.nodes
      have hplain : (withoutRr copy).rr.map AList.entries = some [] := rfl
      rw [hresult, hworld, executeSingle_plain hplain hsource', ← around_source hsame,
        hfaithful.withoutRr hs.toReceived]
      rcases hhandle with rfl | rfl
      · have hbody := doExecuteSingle_private (P := AlwaysCalls svc d headers rest ∨ svc.Ignores source)
          hfaithful.settle hfaithful.sees
        obtain ⟨hsame, halike⟩ := around_alike hbody (fun hignores => hignores) qps _ _
          (hfaithful.alike_begin hs.toReceived n hsource)
        exact ⟨hsame, halike.world⟩
      · exact ⟨rfl, rfl⟩

/-! ### Substitutions that show -/

/-- A request for two iterations with these substitutions. -/
def rrDelivery (rr : List (String × List Json)) : Delivery :=
  { twiceDelivery "b" with
    instruction := { (twiceDelivery "b").instruction with
      rr := some ((rr.map fun e => ⟨e.1, some e.2⟩ :
        List (Sigma fun _ : String => Option (List Json))).toAList) } }

/-- A request that calls another target in each iteration and takes `rr` itself away. -/
def resetDelivery : Delivery := rrDelivery [("trace.1.call", [.str "b", .str "c"]), ("rr", [.obj []])]

/-- What its second iteration works through. -/
def resetCopy : Instruction :=
  { resetDelivery.instruction with
    trace := some [{}, { call := some "c" }], rr := some ∅, caseInfo := some {} }

theorem faithful_sample : Faithful httpService resetDelivery (AList.singleton "color" (some "red")) resetCopy {}
    [{ call := some "c" }] (httpService.stateBefore resetDelivery 0 { rand := () } 1) := by
  have hliteral : ∀ v r, renderNullable httpService.host v (some "c") r = (.ok (some "c"), r) :=
    fun v r => (settles_literal httpService.host (fun _ => True) (by decide)).1 v r trivial
  refine ⟨⟨steady_sample.names, steady_sample.rendered⟩, rfl, Or.inl rfl, fun _ => ⟨fun n hn v v' r _ _ _ => ?_,
    fun n invoker text hn hinvoker _ v v' w hv => ?_⟩, Or.inr (by decide +kernel), Or.inl ⟨_, _, rfl,
    fun v r text r' _ hrender => ?_⟩⟩
  · obtain rfl := Option.some.inj hn
    exact (hliteral v r).trans (hliteral v' r).symm
  · obtain rfl := Option.some.inj hn
    have htable : httpService.invokers "http" = some invoker := hinvoker
    obtain rfl := Option.some.inj htable
    refine Network.invoker_sameRequest _ 1 (Http.send_sameRequest _ _ 0 ?_ hv) w
    intro n queries hn hqueries e he
    obtain rfl := Option.some.inj hn
    obtain rfl : ∅ = queries := Option.some.inj hqueries
    cases he
  · obtain ⟨htext, -⟩ := Prod.mk.inj ((hliteral v r).symm.trans hrender)
    obtain rfl := Except.ok.inj htext
    rfl

theorem iteration_substituted_sample :
    ((httpService.executeSingle resetDelivery.instruction 0 true 0 1).run
        (httpService.stateBefore resetDelivery 0 { rand := () } 1)).1 =
      ((httpService.executeSingle (withoutRr resetCopy) 0 true 0 0).run (beginAs resetDelivery
        (withoutRr resetCopy) (httpService.stateBefore resetDelivery 0 { rand := () } 1).world)).1 :=
  (iteration_substituted httpService resetDelivery resetCopy 0 { rand := () } 1 (processLoop_iff.mp rfl)
    (.faithful (by decide) ⟨_, _, rfl, rfl, fun _ _ => rfl⟩ faithful_sample) true (Or.inl rfl)).1

/-- A service whose calls go one hop further. -/
def chainService : Service Unit := (Http.processes Http.sample).service 2 0

/-- The record of the first iteration of a run. -/
def firstRecord (i : Instruction) (s : St Unit) : Option String :=
  ((chainService.executeSingle i 0 true 0 0).run s).1.toOption.bind Result.renderResult

/-- A request that replaces the call of the second node, and one that replaces the template. -/
def callDelivery : Delivery := rrDelivery [("trace.1.call", [.str "b"])]
def templateDelivery : Delivery := rrDelivery [("traceNodeTmpl", [.str "x"])]

def callCopy : Instruction := { callDelivery.instruction with caseInfo := some {} }
def templateCopy : Instruction :=
  { templateDelivery.instruction with traceNodeTmpl := some "x", caseInfo := some {} }

/-- The next hop applies `rr` again, to a trace that has no second node; and the record is made with
the template that was to be replaced. -/
theorem substitution_shows :
    firstRecord callDelivery.instruction (callDelivery.begin { rand := () }) =
      some "ok -> ok: Missing field" ∧
    firstRecord (withoutRr callCopy) (beginAs callDelivery (withoutRr callCopy) { rand := () }) =
      some "ok -> ok" ∧
    firstRecord templateDelivery.instruction (templateDelivery.begin { rand := () }) = some "ok -> x" ∧
    firstRecord (withoutRr templateCopy) (beginAs templateDelivery (withoutRr templateCopy) { rand := () }) =
      some "x -> x" ∧
    ¬ ∀ (svc : Service Unit) (d : Delivery) (copy : Instruction) (w : World Unit) (n : ℕ),
      d.instruction.threads = 1 → Substituted svc.host d.instruction n copy →
        ((svc.executeSingle d.instruction d.thread true 0 n).run (svc.stateBefore d 0 w n)).1 =
          ((svc.executeSingle (withoutRr copy) d.thread true 0 0).run
            (beginAs d (withoutRr copy) (svc.stateBefore d 0 w n).world)).1 := by
  have hcall : firstRecord callDelivery.instruction (callDelivery.begin { rand := () }) =
      some "ok -> ok: Missing field" := by decide +kernel
  have hmeant : firstRecord (withoutRr callCopy) (beginAs callDelivery (withoutRr callCopy) { rand := () }) =
      some "ok -> ok" := by decide +kernel
  refine ⟨hcall, hmeant, by decide +kernel, by decide +kernel, fun hclaim => ?_⟩
  have hsame := hclaim chainService callDelivery callCopy { rand := () } 0 rfl (processLoop_iff.mp rfl)
  have hrecord : firstRecord callDelivery.instruction (callDelivery.begin { rand := () }) =
      firstRecord (withoutRr callCopy) (beginAs callDelivery (withoutRr callCopy) { rand := () }) :=
    congrArg (fun o : Except Exc Result => o.toOption.bind Result.renderResult) hsame
  rw [hcall, hmeant] at hrecord
  exact absurd hrecord (by decide)

end Service

end Powerful
