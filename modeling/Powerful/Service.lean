import Mathlib
import Powerful.Resumption
import Powerful.Beans

/-! # The service

`execute` runs an instruction as often as it says and reports the records.  One execution
(`executeSingle`) applies the substitutions of `rr` (`processLoop`), works through the first
node of the trace (`doExecuteSingle`) and calls the second one (`call`).

The executions of a request share one state, `St`: the node objects of its trace, its
rendering context and the world outside.  Every access of the source to that state is one
atomic step of a program, so that the executions of several worker threads can be
interleaved.  A remote call is one step as well: the world behind it belongs to other
processes.  Threads that sleep do nothing.

`World.log`, `St.request`, `St.executions`, `St.iterations` and two fields of `Result` are
ghosts: they record what happened, and no modelled function reads them. -/

namespace Powerful

open Resumption

/-! ### The state -/

/-- A request as it reaches a process: one of its threads executes the instruction in a new
context. -/
structure Delivery where
  process : ℕ
  thread : ThreadId
  instruction : Instruction
  requestHeaders : Headers
  path : String
  params : Headers
  method : String

/-- What is recorded of the traffic between processes: a call and what it is made for, its
arrival, its answer, or that the model does not follow it further. -/
inductive Event where
  | invocation (received sent : Instruction)
  | delivery (d : Delivery)
  | answer (response : PowerfulResponse)
  | cut

/-- The world outside a request. -/
structure World (ρ : Type) where
  rand : ρ
  log : List Event := []

def World.put {ρ : Type} (w : World ρ) (e : Event) : World ρ := { w with log := w.log ++ [e] }

/-- What the executions of one request share; `iterations` are the numbers with which the
executions were made. -/
structure St (ρ : Type) where
  nodes : List PowerTraceNode
  ctx : RenderingContext
  world : World ρ
  request : Instruction
  executions : ℕ := 0
  iterations : List ℕ := []

/-- The result of one execution, with the response that this execution got and the delay that
it measured. -/
structure Result where
  delayMillis : ℚ
  renderResult : Option String
  response : Option PowerfulResponse
  measured : ℚ

/-- A way to call a target. -/
abbrev RemoteInvoker (ρ : Type) :=
  Instruction → View → World ρ → Except Exc PowerfulResponse × World ρ

/-- A process: its host, its invokers, and what its thread pool does with the tasks it gets. -/
structure Service (ρ : Type) where
  host : Host ρ
  invokers : String → Option (RemoteInvoker ρ)
  assign : ℕ → ThreadId := id
  schedule : List ThreadId := []

abbrev Run (ρ α : Type) := Prog (St ρ) Exc α

variable {ρ : Type}

namespace St
variable (s : St ρ)

def withRand (r : ρ) : St ρ := { s with world := { s.world with rand := r } }

def withCtx (ctx : RenderingContext) : St ρ := { s with ctx := ctx }

def withNodes (ns : List PowerTraceNode) : St ρ := { s with nodes := ns }

/-- One more execution is made, with number `n`. -/
def perform (n : ℕ) : St ρ :=
  { s with executions := s.executions + 1, iterations := s.iterations ++ [n] }

/-- Change the node the executions call. -/
def modifyNext (f : PowerTraceNode → PowerTraceNode) : St ρ :=
  { s with nodes := s.nodes.modify 1 f }

/-- The `call` of the next node; null also if there is no next node. -/
def nextCall : Option String := s.nodes[1]?.bind PowerTraceNode.call

end St

/-! ### Primitive steps -/

/-- Draw from the random generator or read the clock. -/
def draw {α : Type} (f : ρ → α × ρ) : Run ρ α :=
  .atomic fun s => (.ok (f s.world.rand).1, s.withRand (f s.world.rand).2)

/-- Let time pass; nothing else happens. -/
def sleep : Run ρ Unit := .modify id

namespace Service
variable (svc : Service ρ)

/-- Render a text in the context, as thread `t` sees it. -/
def renderText (t : ThreadId) (source : Option String) : Run ρ (Option String) :=
  .atomic fun s =>
    let (out, r) := renderNullable svc.host (s.ctx.view t) source s.world.rand
    (out, s.withRand r)

/-! ### One execution -/

/-- The template of the records: behind the template of a hop that calls a next one stands
that one's answer. -/
def template (i : Instruction) : Except Exc (Option String) :=
  match i.trace with
  | none => .error .nullPointer
  | some trace =>
      .ok (if trace.length < 2 then i.traceNodeTmpl
        else some (orNull i.traceNodeTmpl ++ " -> {{resultBody()}}"))

/-- The tokens of the JSON pointer `"/" + key.replaceAll("\\.", "/")`. -/
def pointer (key : String) : Option (List String) :=
  ((key.toList.map (fun c => if c = '.' then '/' else c)).splitOn '/').mapM unescape
where
  unescape (token : List Char) : Option String := (unescapeChars token).map String.ofList
  unescapeChars : List Char → Option (List Char)
    | [] => some []
    | '~' :: '0' :: r => (unescapeChars r).map ('~' :: ·)
    | '~' :: '1' :: r => (unescapeChars r).map ('/' :: ·)
    | '~' :: _ => none
    | c :: r => (unescapeChars r).map (c :: ·)

/-- The position at which iteration `n` reads a list of values. -/
def rrPosition (vs : List Json) (n : ℕ) : ℕ := n % vs.length

/-- The value an entry of `rr` has in iteration `n`. -/
def rrValue (values : Option (List Json)) (n : ℕ) : Except Exc Json :=
  match values with
  | none => .error .nullPointer
  | some vs => match vs[rrPosition vs n]? with
    | none => .error (.thrown (some "/ by zero"))
    | some v => .ok v

/-- The patch of iteration `n`. -/
def rrPatches (n : ℕ) : List (Sigma fun _ : String => Option (List Json)) →
    Except Exc (List (String × Json))
  | [] => .ok []
  | e :: es => do
      let v ← rrValue e.2 n
      let ps ← rrPatches n es
      .ok ((e.1, v) :: ps)

/-- Apply the replacements in order. -/
def applyPatches : List (String × Json) → Json → Except Exc Json
  | [], j => .ok j
  | (key, v) :: ps, j => match pointer key with
    | none => .error (.illegalArgument "Invalid escape sequence")
    | some path => match Json.replace false path v j with
      | none => .error (.jsonPatch "Missing field")
      | some j' => applyPatches ps j'

/-- The instruction to execute in iteration `n`: the instruction itself, or a copy in which
every field that `rr` names has its value for `n`. -/
def processLoop (i : Instruction) (n : ℕ) : Except Exc Instruction :=
  match i.rr with
  | none => .error .nullPointer
  | some rr =>
      if rr.entries = [] then .ok i else do
        let patches ← rrPatches n rr.entries
        let patched ← applyPatches patches i.toJson
        match decodeRequestCase svc.host false patched with
        | .ok copy => .ok copy
        -- an `IOException` becomes a `RuntimeException`
        | .error e => .error (.runtime
            (some ("com.fasterxml.jackson.databind.JsonMappingException: " ++ orNull e.getMessage))
            (some e))

/-- The headers of a node behind the propagation: a listed header that was received is added,
unless the node sets it itself. -/
def addListed (received own : Headers) (listed : List String) : Headers :=
  listed.foldl (fun headers name =>
    match received.lookup name with
    | some v => if name ∈ own then headers else headers.insert name v
    | none => headers) own

def propagateHeaders (i : Instruction) : Run ρ Unit :=
  .atomic fun s => match s.ctx.requestHeaders, i.propagateHeaders with
    | some received, some propagate =>
        if propagate = "" then (.ok (), s) else match s.nodes with
          | [] => (.error .nullPointer, s)
          | node :: rest =>
              let headers := addListed received (node.headers.getD ∅) (split ',' propagate)
              if node.headers = none ∧ headers.entries = [] then (.ok (), s)
              else (.ok (), s.withNodes ({ node with headers := some headers } :: rest))
    | _, _ => (.ok (), s)

/-- Render one header of the request in place. -/
def renderHeader (t : ThreadId) (k : String) : Run ρ Unit :=
  .atomic fun s => match s.ctx.requestHeaders.bind (AList.lookup k) with
    | none => (.ok (), s)
    | some v => match renderNullable svc.host (s.ctx.view t) v s.world.rand with
      | (.error e, r) => (.error e, s.withRand r)
      | (.ok value, r) => (.ok (), (s.withRand r).withCtx (s.ctx.putRequestHeader k value))

def renderHeaderList (t : ThreadId) : List String → Run ρ Unit
  | [] => pure ()
  | k :: ks => do
      svc.renderHeader t k
      renderHeaderList t ks

def renderHeaders (t : ThreadId) : Run ρ Unit := do
  let names ← .read fun s => (s.ctx.requestHeaders.map AList.keys).getD []
  svc.renderHeaderList t names

/-- The text of the method `method<n>` of the testing service. -/
def testMethodText (n : ℕ) : String := (if n < 10 then "0" else "") ++ toString n

def invokeTestMethod (t : ThreadId) (node : PowerTraceNode) : Run ρ Unit :=
  match node.callTestMethod with
  | none => pure ()
  | some n =>
      if n = 0 then pure ()
      else if 100 < n ∨ n < 0 then
        .throw (.illegalArgument ("invokeTestMethod: illegal n: " ++ toString n.toInt))
      else do
        let k ← draw (svc.host.nextIntBelow n.toInt.toNat)
        .modify fun s => s.withCtx (s.ctx.setInvokeResult t (testMethodText k))

def delay (node : PowerTraceNode) : Run ρ Unit :=
  if 1 ≤ node.delay * 1000 then sleep else pure ()

def errorByPercent (node : PowerTraceNode) : Run ρ Unit :=
  match node.errorByPercent with
  | none => .throw .nullPointer
  | some percent =>
      if 0 < percent then do
        let k ← draw (svc.host.nextIntBelow 100)
        if (k : ℤ) < percent.toInt then .throw (.runtime (some "Random Error.") none) else pure ()
      else pure ()

def code (node : PowerTraceNode) : Run ρ Unit :=
  if node.code = 200 then pure () else
    match svc.host.statusName node.code.toInt with
    | some name => .throw (.statusCode node.code.toInt name)
    | none => .throw (.illegalArgument ("Status unsupported: " ++ toString node.code.toInt))

def dubboPrefix : String := "dubbo://"

/-- Whether the next node names a Dubbo target by its prefix. -/
def hasDubboPrefix (call : Option String) : Bool := (call.map (startsWith · dubboPrefix)).getD false

/-- `node.setCall(node.getCall().substring("dubbo://".length()))`.  Another thread may have
shortened the text since it was looked at. -/
def stripPrefix : Run ρ Unit :=
  .atomic fun s => match s.nextCall with
    | none => (.error .nullPointer, s)
    | some c =>
        if c.length < 8 then (.error (.indexOutOfBounds "String index out of range"), s)
        else (.ok (), s.modifyNext fun node => { node with call := some (substring c 8) })

def setBy (protocol : String) : Run ρ Unit :=
  .modify fun s => s.modifyNext fun node => { node with by_ := some protocol }

/-- A prefix of the call chooses the protocol. -/
def chooseProtocol : Run ρ Unit := do
  let dubbo ← .read fun s => hasDubboPrefix s.nextCall
  if dubbo then do
    stripPrefix
    setBy "dubbo"
  else pure ()

/-- The invoker of the next node's protocol. -/
def invokerOf : Run ρ (RemoteInvoker ρ) :=
  .atomic fun s => match (s.nodes[1]?.bind PowerTraceNode.by_).bind svc.invokers with
    | some invoker => (.ok invoker, s)
    | none => (.error (.illegalState ("Protocol not supported in this instance: '" ++
        orNull (s.nodes[1]?.bind PowerTraceNode.by_) ++ "'")), s)

/-- `node.setCall(stringRenderer.render(node.getCall(), context))`. -/
def renderCall (t : ThreadId) : Run ρ Unit :=
  .atomic fun s => match renderNullable svc.host (s.ctx.view t) s.nextCall s.world.rand with
    | (.error e, r) => (.error e, s.withRand r)
    | (.ok c, r) => (.ok (), (s.withRand r).modifyNext fun node => { node with call := c })

/-- `StringUtils.isEmpty`. -/
def isEmpty (s : Option String) : Bool := s = none || s = some ""

/-- The instruction for the next hop, with the nodes as they are now. -/
def next (i : Instruction) (s : St ρ) : Option Instruction :=
  ({ i with trace := some s.nodes } : Instruction).getNext

/-- `invoker.invoke(instruction, context)`. -/
def invoke (i : Instruction) (t : ThreadId) (invoker : RemoteInvoker ρ) : Run ρ PowerfulResponse :=
  .atomic fun s => match next i s with
    | none => (.error .nullPointer, s)
    | some sent =>
        let (out, w) := invoker sent (s.ctx.view t) (s.world.put (.invocation s.request sent))
        (out, { s with world := w })

def setResult (t : ThreadId) (response : PowerfulResponse) : Run ρ Unit :=
  .modify fun s => s.withCtx (s.ctx.setResult t response)

/-- Call the next node, unless its call is empty.  The value is the response that was stored. -/
def callNext (i : Instruction) (t : ThreadId) : Run ρ (Option PowerfulResponse) := do
  chooseProtocol
  let invoker ← svc.invokerOf
  svc.renderCall t
  let empty ← .read fun s => isEmpty s.nextCall
  if empty then pure none else do
    let response ← invoke i t invoker
    setResult t response
    pure (some response)

/-- Call the next node, if there is one. -/
def call (i : Instruction) (t : ThreadId) : Run ρ (Option PowerfulResponse) := do
  let last ← .read fun s => s.nodes[1]?.isNone
  if last then pure none else svc.callNext i t

/-- Work through the first node of the trace, then call the second one. -/
def doExecuteSingle (i : Instruction) (t : ThreadId) : Run ρ (Option PowerfulResponse) := do
  propagateHeaders i
  svc.renderHeaders t
  let node? ← .read fun s => s.nodes.head?
  match node? with
  | none => .throw .nullPointer
  | some node => do
      svc.invokeTestMethod t node
      delay node
      svc.errorByPercent node
      svc.code node
      svc.call i t

/-- `doExecuteSingle(processLoop(instruction, executed), context)`.  Without `rr` the nodes are
the shared ones, else they are private. -/
def executeProcessed (i : Instruction) (t : ThreadId) (executed : ℕ) :
    Run ρ (Option PowerfulResponse) := do
  let i' ← .atomic fun s => (svc.processLoop { i with trace := some s.nodes } executed, s)
  if (i.rr.map AList.entries) = some [] then svc.doExecuteSingle i t
  else .withCopy St.nodes (fun ns s => s.withNodes ns) i'.nodes (svc.doExecuteSingle i' t)

/-- The delay since `requestStarts`, measured and stored. -/
def storeDelay (t : ThreadId) (requestStarts : ℕ) : Run ρ ℚ := do
  let now ← draw svc.host.nanoTime
  let delayMillis : ℚ := ((now : ℚ) - requestStarts) / 1000000
  .modify fun s => s.withCtx (s.ctx.setDelayMillis t delayMillis)
  pure delayMillis

/-- The response that stands for an exception. -/
def errorResponse (e : Exc) : PowerfulResponse :=
  { result := (e.getMessage.map Json.str).getD .null, status := some "200" }

/-- What becomes of an exception that is not handled: the record so far, then the message. -/
def wrap (record : Option String) (e : Exc) : Exc :=
  .runtime (some (orNull record ++ ": " ++ orNull e.getMessage)) (some e)

/-- Behind the body of an execution: the exception is stored or rethrown, the delay is stored
in any case.  The values are the response of this execution and its delay. -/
def conclude (t : ThreadId) (handleException : Bool) (template : Option String)
    (requestStarts : ℕ) (outcome : Except Exc (Option PowerfulResponse)) :
    Run ρ (Option PowerfulResponse × ℚ) :=
  match outcome with
  | .ok response => do
      let measured ← svc.storeDelay t requestStarts
      pure (response, measured)
  | .error e =>
      if handleException then do
        setResult t (errorResponse e)
        let measured ← svc.storeDelay t requestStarts
        pure (some (errorResponse e), measured)
      else do
        let record ← (svc.renderText t template).attempt
        let _ ← svc.storeDelay t requestStarts
        match record with
        | .ok record => .throw (wrap record e)
        | .error e' => .throw e'

/-- Wait for the turn of the execution.  The waiting time is computed from the clock. -/
def awaitTurn (qps : ℚ) : Run ρ Unit :=
  if qps = 0 then pure () else do
    let _ ← draw svc.host.nanoTime
    pure ()

/-- One execution, `executed` ones after the first of its thread. -/
def executeBody (i : Instruction) (t : ThreadId) (handleException : Bool) (qps : ℚ)
    (executed : ℕ) : Run ρ Result := do
  svc.awaitTurn qps
  let template ← .ofExcept (template i)
  sleep
  let requestStarts ← draw svc.host.nanoTime
  let outcome ← (svc.executeProcessed i t executed).attempt
  let own ← svc.conclude t handleException template requestStarts outcome
  let delayMillis ← .read fun s => (s.ctx.getResults t).delayMillis
  let renderResult ← svc.renderText t template
  pure ⟨delayMillis, renderResult, own.1, own.2⟩

/-- One execution, recorded. -/
def executeSingle (i : Instruction) (t : ThreadId) (handleException : Bool) (qps : ℚ)
    (executed : ℕ) : Run ρ Result := do
  .modify fun s => s.perform executed
  svc.executeBody i t handleException qps executed

end Service

end Powerful
