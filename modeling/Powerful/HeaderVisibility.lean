import Mathlib
import Powerful.GrpcHeaders
import Powerful.ResponseHeaders

/-! # The headers of a node at the callee

Every protocol moves the headers of a trace node in its own way.  HTTP sends them as fields of
the request, and the callee puts the fields it finds into a new context.  Dubbo sends them as
attachments, which the callee puts into a new context, too.  gRPC sends them as metadata that
no callee reads: `GrpcAService.echo` decodes its context from the request, where the caller has
written its own one.

`Hop` is one call by any of the protocols.  `visible_iff` says when the context of the callee
contains the headers of the node with their values. -/

namespace Powerful

variable {ρ : Type}

/-- The entries of a header map. -/
def headerFields (headers : Headers) : List (String × Option String) :=
  headers.entries.map fun e => (e.1, e.2)

/-! ### HTTP -/

/-- The context's headers: of each name the values, joined. -/
def HttpController.transformRequestHeaders (fields : List (String × List String)) : Headers :=
  fields.foldl (fun (result : Headers) f => result.insert f.1 (some (String.intercalate "," f.2))) ∅

/-- The fields that a container finds are those that were sent, and perhaps others; of each name there
is one, whatever its spelling.  A null is sent as an empty text. -/
structure FindsFields (sent : List (String × Option String)) (found : List (String × List String)) :
    Prop where
  names : (found.map fun f => lowerName f.1).Nodup
  sent : ∀ f ∈ sent, ∃ name, lowerName name = lowerName f.1 ∧ (name, [f.2.getD ""]) ∈ found

theorem HttpController.lookup_transformRequestHeaders {fields : List (String × List String)}
    (hnames : (fields.map Prod.fst).Nodup) {name : String} {values : List String}
    (hmem : (name, values) ∈ fields) :
    (transformRequestHeaders fields).lookup name = some (some (String.intercalate "," values)) := by
  have hput : ∀ (m : Headers) (f : String × List String) (k : String), k ≠ f.1 →
      (m.insert f.1 (some (String.intercalate "," f.2))).lookup k = m.lookup k :=
    fun m f k hk => AList.lookup_insert_ne hk
  exact StringMap.lookup_foldl_put Prod.fst hput fields ∅ hnames hmem fun m => AList.lookup_insert m

/-- Every header of the context was found. -/
theorem HttpController.mem_of_transformRequestHeaders {fields : List (String × List String)} {name : String}
    (hname : name ∈ transformRequestHeaders fields) : ∃ values, (name, values) ∈ fields := by
  by_contra hnone
  have hnotMem : name ∉ fields.map Prod.fst := by
    intro hmem
    obtain ⟨f, hf, rfl⟩ := List.mem_map.mp hmem
    exact hnone ⟨f.2, hf⟩
  have hput : ∀ (m : Headers) (f : String × List String) (k : String), k ≠ f.1 →
      (m.insert f.1 (some (String.intercalate "," f.2))).lookup k = m.lookup k :=
    fun m f k hk => AList.lookup_insert_ne hk
  have hlookup : (transformRequestHeaders fields).lookup name = (∅ : Headers).lookup name :=
    StringMap.lookup_foldl_put_ne Prod.fst hput fields ∅ hnotMem
  rw [← AList.lookup_isSome, hlookup] at hname
  cases hname

/-- Of a field that was sent the context has one header, with its value. -/
theorem FindsFields.lookup_iff {sent : List (String × Option String)} {found : List (String × List String)}
    (h : FindsFields sent found) {f : String × Option String} (hf : f ∈ sent) (text : String) :
    (∃ name, lowerName name = lowerName f.1 ∧
      (HttpController.transformRequestHeaders found).lookup name = some (some text)) ↔ f.2.getD "" = text := by
  obtain ⟨name, hname, hfound⟩ := h.sent f hf
  have hnames : (found.map Prod.fst).Nodup := by
    have hmap : ((found.map Prod.fst).map lowerName).Nodup := by
      rw [List.map_map]
      exact h.names
    exact hmap.of_map _
  have hvalue := HttpController.lookup_transformRequestHeaders hnames hfound
  rw [String.intercalate_singleton] at hvalue
  constructor
  · rintro ⟨name', hname', hlookup⟩
    obtain ⟨values, hmem⟩ := HttpController.mem_of_transformRequestHeaders
      (AList.lookup_isSome.mp (by rw [hlookup]; rfl))
    have heq := List.inj_on_of_nodup_map h.names hmem hfound (hname'.trans hname.symm)
    obtain ⟨rfl, -⟩ := Prod.mk.inj heq
    exact Option.some.inj (Option.some.inj (hvalue.symm.trans hlookup))
  · rintro rfl
    exact ⟨name, hname, hvalue⟩

/-- A name that is set stays set, in some spelling. -/
theorem exists_setHeader {fields : List (String × Option String)} {name k : String}
    {value : Option String} (h : lowerName name = lowerName k ∨ ∃ f ∈ fields, lowerName f.1 = lowerName k) :
    ∃ f ∈ setHeader name value fields, lowerName f.1 = lowerName k := by
  by_cases hname : lowerName name = lowerName k
  · exact ⟨(name, value), List.mem_append_right _ List.mem_cons_self, hname⟩
  · obtain ⟨f, hf, hk⟩ := h.resolve_left hname
    refine ⟨f, List.mem_append_left _ (List.mem_filter.mpr ⟨hf, ?_⟩), hk⟩
    simpa [lowerName] using fun heq : lowerName f.1 = lowerName name => hname (heq.symm.trans hk)

theorem exists_foldl_setHeader {k : String} : ∀ (es : List (Sigma fun _ : String => Option String))
    {fields : List (String × Option String)},
    ((∃ e ∈ es, e.1 = k) ∨ ∃ f ∈ fields, lowerName f.1 = lowerName k) →
      ∃ f ∈ es.foldl (fun fields e => setHeader e.1 e.2 fields) fields, lowerName f.1 = lowerName k
  | [], fields, h => by
      rcases h with ⟨e, he, -⟩ | h
      · cases he
      · exact h
  | e :: es, fields, h => by
      apply exists_foldl_setHeader es
      rcases h with ⟨e', he', hk⟩ | h
      · rcases List.mem_cons.mp he' with rfl | he'
        · exact Or.inr (exists_setHeader (Or.inl (by rw [hk])))
        · exact Or.inl ⟨e', he', hk⟩
      · exact Or.inr (exists_setHeader (Or.inr h))

/-- The request has a field for every header of the node. -/
theorem HttpRemoteInvoker.exists_field {own : Headers} {k : String} (hk : k ∈ own) :
    ∃ f ∈ HttpRemoteInvoker.headers own, lowerName f.1 = lowerName k := by
  obtain ⟨e, he, hkey⟩ := List.mem_map.mp (AList.mem_keys.mp hk)
  exact exists_setHeader (Or.inr (exists_foldl_setHeader own.entries (Or.inl ⟨e, he, hkey⟩)))

theorem HttpRemoteInvoker.headers_distinct (own : Headers) :
    DistinctFields (HttpRemoteInvoker.headers own) :=
  setHeader_distinct _ _ (foldl_setHeader_distinct own.entries List.Pairwise.nil)

/-- The value that is set last under a name, in any spelling. -/
def lastValue (headers : Headers) (k : String) : Option (Option String) :=
  (headers.entries.reverse.find? fun e => lowerName e.1 = lowerName k).map Sigma.snd

/-- A field has the value that was set last. -/
theorem find?_of_mem_setHeader {f : String × Option String} (es : List (Sigma fun _ : String => Option String))
    (hf : f ∈ es.foldl (fun fields e => setHeader e.1 e.2 fields) []) :
    (es.reverse.find? fun e => lowerName e.1 = lowerName f.1).map Sigma.snd = some f.2 := by
  induction es using List.reverseRecOn with
  | nil => cases hf
  | append_singleton es e ih =>
      rw [List.foldl_append, List.foldl_cons, List.foldl_nil] at hf
      rw [List.reverse_append, List.reverse_singleton, List.singleton_append]
      rcases List.mem_append.mp hf with hold | hnew
      · obtain ⟨hmem, hname⟩ := List.mem_filter.mp hold
        have hne : lowerName f.1 ≠ lowerName e.1 := by simpa [lowerName] using hname
        rw [List.find?_cons_of_neg (by simpa using hne.symm)]
        exact ih hmem
      · obtain rfl := List.mem_singleton.mp hnew
        rw [List.find?_cons_of_pos (by simp)]
        rfl

namespace HttpRemoteInvoker

/-- The content type of a request. -/
def contentType : String := "application/json;charset=UTF-8"

/-- A field of a request is the content type, or has the last value that the node sets under its name. -/
theorem mem_headers_value {own : Headers} {f : String × Option String}
    (hf : f ∈ HttpRemoteInvoker.headers own) :
    f = ("Content-Type", some contentType) ∨
      (lowerName f.1 ≠ lowerName "Content-Type" ∧ lastValue own f.1 = some f.2) := by
  rcases List.mem_append.mp hf with hown | htype
  · obtain ⟨hmem, hname⟩ := List.mem_filter.mp hown
    exact Or.inr ⟨by simpa [lowerName] using hname, find?_of_mem_setHeader own.entries hmem⟩
  · exact Or.inl (List.mem_singleton.mp htype)

/-- The request says the same of every header of the node: a content type is that of the request, and
among names that are equal without case the last one counts. -/
def Keeps (own : Headers) : Prop :=
  ∀ k text, own.lookup k = some (some text) →
    if lowerName k = lowerName "Content-Type" then text = contentType
    else (lastValue own k).map (Option.getD · "") = some text

/-- The value of the field that a header of the node becomes. -/
theorem field_value {own : Headers} {k text : String} {f : String × Option String}
    (hf : f ∈ HttpRemoteInvoker.headers own) (hfk : lowerName f.1 = lowerName k) :
    f.2.getD "" = text ↔ if lowerName k = lowerName "Content-Type" then text = contentType
      else (lastValue own k).map (Option.getD · "") = some text := by
  have hlast : lastValue own k = lastValue own f.1 := by
    unfold lastValue
    rw [hfk]
  rcases mem_headers_value hf with rfl | ⟨htype, hvalue⟩
  · rw [if_pos hfk.symm]
    exact eq_comm
  · rw [if_neg (hfk ▸ htype), hlast, hvalue, Option.map_some, Option.some.injEq]

/-- Headers with distinct names, none of them the content type, are kept. -/
theorem keeps_of_distinct {own : Headers} (hnames : DistinctNames own)
    (htype : ∀ k ∈ own, lowerName k ≠ lowerName "Content-Type") : Keeps own := by
  intro k text hk
  have hmem : k ∈ own := AList.lookup_isSome.mp (by rw [hk]; rfl)
  have hfield : (k, some text) ∈ httpHeaders own := ((sends_iff own).mpr hnames (k, some text)).mpr hk
  rw [if_neg (htype k hmem)]
  have hlast : lastValue own k = some (some text) := find?_of_mem_setHeader own.entries hfield
  rw [hlast]
  rfl

end HttpRemoteInvoker

/-! ### Dubbo -/

/-- `RpcContext.setAttachment`: null removes an attachment. -/
def setAttachment (name : String) (value : Option String) (attachments : Headers) : Headers :=
  match value with
  | none => attachments.erase name
  | some v => attachments.insert name (some v)

/-- The attachments of the thread, with the headers of the node. -/
def DubboRemoteInvoker.attach (own attachments : Headers) : Headers :=
  own.entries.foldl (fun attachments e => setAttachment e.1 e.2 attachments) attachments

/-- An argument of a Dubbo method. -/
inductive DubboArg where
  | instruction
  | string (s : String)
  | value (j : Json)

namespace RPCControllerAspect

/-- The parameter that stands for an argument. -/
def param (text : JsonText) : DubboArg → String
  | .instruction => "<Instruction>"
  | .string s => s
  | .value j => text.write j

def params (text : JsonText) (args : List DubboArg) : Headers :=
  args.zipIdx.foldl (fun params a => params.insert (toString a.2) (some (param text a.1))) ∅

/-- The context of `handleDubboRequest`. -/
def context (text : JsonText) (t : ThreadId) (attachments : Headers) (args : List DubboArg) :
    RenderingContext :=
  { RenderingContext.new t with
    requestHeaders := some (StringMap.putAll ∅ attachments), params := params text args }

end RPCControllerAspect

theorem lookup_setAttachment_ne {name k : String} (h : k ≠ name) (value : Option String)
    (attachments : Headers) : (setAttachment name value attachments).lookup k = attachments.lookup k := by
  cases value with
  | none => exact AList.lookup_erase_ne h
  | some v => exact AList.lookup_insert_ne h

/-- A header with a value is attached. -/
theorem DubboRemoteInvoker.lookup_attach {own : Headers} {k text : String}
    (hk : own.lookup k = some (some text)) (attachments : Headers) :
    (attach own attachments).lookup k = some (some text) := by
  have hput : ∀ (m : Headers) (e : Sigma fun _ : String => Option String) (k : String), k ≠ e.1 →
      (setAttachment e.1 e.2 m).lookup k = m.lookup k :=
    fun m e k hk => lookup_setAttachment_ne hk e.2 m
  have hmem : (⟨k, some text⟩ : Sigma fun _ : String => Option String) ∈ own.entries :=
    AList.mem_lookup_iff.mp hk
  exact StringMap.lookup_foldl_put Sigma.fst hput own.entries attachments own.nodupKeys hmem
    fun m => AList.lookup_insert m

/-! ### gRPC -/

/-- A gRPC request. -/
structure EchoNum where
  num : ℤ
  instruction : String
  context : String

def ofResponse (response : PowerfulResponse) : Json :=
  .obj [("responseHeaders", ofHeaders (some response.responseHeaders)), ("result", response.result),
    ("status", ofString response.status)]

/-- The document of a context, as thread `t` writes it. -/
def RenderingContext.toJson (ctx : RenderingContext) (t : ThreadId) : Json :=
  .obj [("requestHeaders", ofHeaders ctx.requestHeaders), ("path", .str ctx.path),
    ("params", ofHeaders (some ctx.params)), ("method", .str ctx.method),
    ("result", ofResponse (ctx.getResult t)), ("invokeResult", ofString (ctx.getResults t).invokeResult),
    ("delayMillis", .dbl (ctx.getResults t).delayMillis)]

def asResponse (h : Host ρ) : Json → Except Exc PowerfulResponse
  | .obj fs => do
      let responseHeaders ← field fs "responseHeaders" (some ∅) (asHeaders h)
      let result ← field fs "result" .null .ok
      let status ← field fs "status" none (asString h)
      .ok ⟨responseHeaders.getD ∅, result, status⟩
  | _ => .error (mismatch "zhranklin.powerful.model.PowerfulResponse")

/-- Read a context on thread `t`. -/
def decodeContext (h : Host ρ) (t : ThreadId) : Json → Except Exc RenderingContext
  | .obj fs => do
      let requestHeaders ← field fs "requestHeaders" (some ∅) (asHeaders h)
      let path ← field fs "path" (some "") (asString h)
      let params ← field fs "params" (some ∅) (asHeaders h)
      let method ← field fs "method" (some "") (asString h)
      let response ← field fs "result" {} (asResponse h)
      let invokeResult ← field fs "invokeResult" none (asString h)
      let delayMillis ← field fs "delayMillis" 0 (asDouble h)
      .ok { requestHeaders := requestHeaders, path := path.getD "", params := params.getD ∅,
            method := method.getD "",
            results := Function.update (fun _ => none) t (some ⟨response, invokeResult, delayMillis⟩) }
  | _ => .error (mismatch "zhranklin.powerful.model.RenderingContext")

theorem asResponse_ofResponse (h : Host ρ) (response : PowerfulResponse) :
    asResponse h (ofResponse response) = .ok response := by
  unfold ofResponse asResponse field
  simp only [List.lookup_cons, String.reduceBEq, asHeaders_ofHeaders, asString_ofString, bind,
    Except.bind, BEq.rfl]
  rfl

/-- **Round trip**: a context is read with everything but the slots of other threads. -/
theorem decodeContext_toJson (h : Host ρ) (t t' : ThreadId) (ctx : RenderingContext) :
    decodeContext h t' (ctx.toJson t) =
      .ok { ctx with results := Function.update (fun _ => none) t' (some (ctx.getResults t)) } := by
  unfold RenderingContext.toJson decodeContext field
  simp only [List.lookup_cons, String.reduceBEq, asHeaders_ofHeaders, asString_ofString,
    asResponse_ofResponse, bind, Except.bind, BEq.rfl]
  rfl

namespace GrpcRemoteInvoker

/-- The query `num`, zero if it is none. -/
def num (queries : Headers) : ℤ :=
  match (queries.lookup "num").join with
  | none => 0
  | some s => (parseInt s).toOption.getD 0

/-- The request: number, instruction and context of the caller. -/
def request (text : JsonText) (i : Instruction) (queries : Headers) (ctx : RenderingContext)
    (t : ThreadId) : EchoNum :=
  ⟨num queries, text.write i.toJson, text.write (ctx.toJson t)⟩

end GrpcRemoteInvoker

namespace GrpcAService

def readValue {α : Type} (text : JsonText) (decode : Json → Except Exc α) (source : String) :
    Except Exc α :=
  match text.read source with
  | some j => decode j
  | none => .error (.jsonMapping "Unexpected character")

/-- What `echo` executes: instruction and context of the request. -/
def echo (h : Host ρ) (text : JsonText) (t : ThreadId) (request : EchoNum) :
    Except Exc (Instruction × RenderingContext) := do
  let instruction ← readValue text (decodeInstruction h false) request.instruction
  let context ← readValue text (decodeContext h t) request.context
  .ok (instruction, context)

/-- The callee executes in a context with the headers that the caller got. -/
theorem echo_requestHeaders {h : Host ρ} {text : JsonText} {t t' : ThreadId} {i j : Instruction}
    {queries : Headers} {ctx ctx' : RenderingContext}
    (hread : text.read (text.write (ctx.toJson t)) = some (ctx.toJson t))
    (hecho : echo h text t' (GrpcRemoteInvoker.request text i queries ctx t) = .ok (j, ctx')) :
    ctx'.requestHeaders = ctx.requestHeaders := by
  obtain ⟨_, -, hecho⟩ := ok_of_bind hecho
  obtain ⟨context, hcontext, hecho⟩ := ok_of_bind hecho
  obtain ⟨-, rfl⟩ := Prod.mk.inj (Except.ok.inj hecho)
  unfold readValue GrpcRemoteInvoker.request at hcontext
  simp only [hread, decodeContext_toJson] at hcontext
  rw [← Except.ok.inj hcontext]

end GrpcAService

/-! ### A hop by any protocol -/

inductive Wire where
  | http
  | dubbo
  | grpc
deriving DecidableEq

/-- HTTP names are compared without case. -/
def Wire.SameName (w : Wire) (a b : String) : Prop :=
  match w with
  | .http => lowerName a = lowerName b
  | _ => a = b

/-- What lies between the processes: HTTP, the attachments that a Dubbo provider finds, the gRPC
client, and the JSON library. -/
structure Transports (ρ : Type) where
  hosts : ℕ → Host ρ
  http : Http
  found : HttpRequest → List (String × List String)
  attachments : Headers → Headers
  client : GrpcClient
  text : JsonText

/-- Fields and attachments arrive as they were sent, perhaps among others. -/
structure Transports.Unchanged (tr : Transports ρ) : Prop where
  http : ∀ req a, DistinctFields req.headers → tr.http.arrive req = .ok a →
    FindsFields req.headers (tr.found req) ∧
      a.requestHeaders = HttpController.transformRequestHeaders (tr.found req)
  dubbo : ∀ sent k v, sent.lookup k = some v → (tr.attachments sent).lookup k = some v

/-- One call of the first node of `i`, made by thread `t` in `ctx`, with the headers of the context in
which the callee executes. -/
inductive Hop (tr : Transports ρ) (i : Instruction) (node : PowerTraceNode) (own : Headers)
    (ctx : RenderingContext) (t : ThreadId) : Wire → Option Headers → Prop
  | http {p : ℕ} {r r' : ρ} {d : Delivery} (w : World ρ)
      (hsend : (tr.http.protocol tr.hosts p).send i (ctx.view t) r = (.arrived d, r')) :
      Hop tr i node own ctx t .http (d.begin w).ctx.requestHeaders
  | dubbo (attachments : Headers) (t' : ThreadId) (args : List DubboArg) :
      Hop tr i node own ctx t .dubbo (RPCControllerAspect.context tr.text t'
        (tr.attachments (DubboRemoteInvoker.attach own attachments)) args).requestHeaders
  -- the metadata are what the interceptor finds when the call starts
  | grpc {p : ℕ} {queries metadata : Headers} {t' : ThreadId} {j : Instruction} {ctx' : RenderingContext}
      (hqueries : node.queries = some queries) (hcall : tr.client.calls (orNull node.call) = true)
      (hput : tr.client.attachable metadata = true)
      (hecho : GrpcAService.echo (tr.hosts p) tr.text t'
        (GrpcRemoteInvoker.request tr.text i queries ctx t) = .ok (j, ctx')) :
      Hop tr i node own ctx t .grpc ctx'.requestHeaders

/-- The callee's headers contain every header of the node that has a value, with this value. -/
def Visible (w : Wire) (own : Headers) (received : Option Headers) : Prop :=
  ∀ k text, own.lookup k = some (some text) → ∃ headers name, received = some headers ∧
    w.SameName name k ∧ headers.lookup name = some (some text)

/-- The headers contain all those of the node. -/
def ContainsAll (own : Headers) (headers : Option Headers) : Prop :=
  ∀ k text, own.lookup k = some (some text) → headers.bind (AList.lookup k) = some (some text)

/-- What lets the headers through: over HTTP the headers themselves, over gRPC the ones that the caller
has got. -/
def Wire.Passes (w : Wire) (own : Headers) (caller : Option Headers) : Prop :=
  match w with
  | .http => HttpRemoteInvoker.Keeps own
  | .dubbo => True
  | .grpc => ContainsAll own caller

/-- An arrived request had the headers of its first node. -/
theorem arrived_headers {http : Http} {hosts : ℕ → Host ρ} {p : ℕ} {i : Instruction}
    {node : PowerTraceNode} {own : Headers} {v : View} {r r' : ρ} {d : Delivery}
    (hnode : i.nodes.head? = some node) (hown : node.headers = some own)
    (hsend : (http.protocol hosts p).send i v r = (.arrived d, r')) :
    ∃ req a, req.headers = HttpRemoteInvoker.headers own ∧ http.arrive req = .ok a ∧
      d.requestHeaders = a.requestHeaders := by
  obtain ⟨req, a, hreq, harrive, hreceive⟩ := http.arrived_inv hsend
  obtain ⟨node', own', queries, params, hnode', hown', -, -, hbuild⟩ :=
    HttpRemoteInvoker.request_ok _ _ hreq
  obtain rfl := Option.some.inj (hnode.symm.trans hnode')
  obtain rfl := Option.some.inj (hown.symm.trans hown')
  obtain ⟨carried, -, -, -, rfl⟩ := (HttpRemoteInvoker.build_iff _ _).mp hbuild
  obtain ⟨j, -, hreceive⟩ := ok_of_bind hreceive
  obtain rfl := Except.ok.inj hreceive
  exact ⟨_, a, rfl, harrive, rfl⟩

theorem mem_headerFields {headers : Headers} {f : String × Option String} :
    f ∈ headerFields headers ↔ headers.lookup f.1 = some f.2 := mem_entries_iff f

/-- Over HTTP the callee's context has one header for each header of the node, with the value that the
request says. -/
theorem http_lookup_iff {tr : Transports ρ} (hunchanged : tr.Unchanged) {p : ℕ} {i : Instruction}
    {node : PowerTraceNode} {own : Headers} {v : View} {r r' : ρ} {d : Delivery}
    (hnode : i.nodes.head? = some node) (hown : node.headers = some own)
    (hsend : (tr.http.protocol tr.hosts p).send i v r = (.arrived d, r')) {k : String} (hk : k ∈ own)
    (text : String) :
    (∃ name, lowerName name = lowerName k ∧ d.requestHeaders.lookup name = some (some text)) ↔
      if lowerName k = lowerName "Content-Type" then text = HttpRemoteInvoker.contentType
      else (lastValue own k).map (Option.getD · "") = some text := by
  obtain ⟨req, a, hheaders, harrive, hd⟩ := arrived_headers hnode hown hsend
  have hdistinct : DistinctFields req.headers := by
    rw [hheaders]
    exact HttpRemoteInvoker.headers_distinct own
  obtain ⟨hfinds, hreceived⟩ := hunchanged.http req a hdistinct harrive
  obtain ⟨f, hf, hfk⟩ := HttpRemoteInvoker.exists_field hk
  have hvalue := hfinds.lookup_iff (hheaders ▸ hf) text
  rw [← HttpRemoteInvoker.field_value hf hfk, ← hvalue, hd, hreceived, hfk]

/-- **Visibility**: the callee's context contains the headers of the node with their values if and only
if the protocol lets them through. -/
theorem visible_iff {tr : Transports ρ} (hunchanged : tr.Unchanged) {i : Instruction}
    {node : PowerTraceNode} {own : Headers} {ctx : RenderingContext} {t : ThreadId}
    (hnode : i.nodes.head? = some node) (hown : node.headers = some own)
    (hread : tr.text.read (tr.text.write (ctx.toJson t)) = some (ctx.toJson t)) {w : Wire}
    {received : Option Headers} (hhop : Hop tr i node own ctx t w received) :
    Visible w own received ↔ w.Passes own ctx.requestHeaders := by
  cases hhop with
  | http world hsend =>
      refine forall_congr' fun k => forall_congr' fun text => imp_congr_right fun hk => ?_
      have hmem : k ∈ own := AList.lookup_isSome.mp (by rw [hk]; rfl)
      rw [← http_lookup_iff hunchanged hnode hown hsend hmem text]
      constructor
      · rintro ⟨headers, name, hheaders, hname, hlookup⟩
        obtain rfl := Option.some.inj hheaders
        exact ⟨name, hname, hlookup⟩
      · rintro ⟨name, hname, hlookup⟩
        exact ⟨_, name, rfl, hname, hlookup⟩
  | dubbo attachments t' args =>
      refine iff_of_true (fun k text hk => ?_) trivial
      have hfound := hunchanged.dubbo _ _ _ (DubboRemoteInvoker.lookup_attach hk attachments)
      refine ⟨_, k, rfl, rfl, ?_⟩
      rw [StringMap.lookup_putAll_of_mem (AList.lookup_isSome.mp (by rw [hfound]; rfl)), hfound]
  | grpc hqueries hcall hput hecho =>
      rw [GrpcAService.echo_requestHeaders hread hecho]
      refine forall_congr' fun k => forall_congr' fun text => imp_congr_right fun hk => ?_
      constructor
      · rintro ⟨headers, name, hheaders, hname, hlookup⟩
        obtain rfl : name = k := hname
        rw [hheaders]
        exact hlookup
      · intro hcontains
        obtain ⟨headers, hheaders, hlookup⟩ := Option.bind_eq_some_iff.mp hcontains
        exact ⟨headers, k, hheaders, rfl, hlookup⟩

/-! ### Two hops by gRPC -/

/-- A node with the header `color: red`. -/
def coloredNode : PowerTraceNode :=
  { call := some "grpc-a", by_ := some "grpc", headers := some (AList.singleton "color" (some "red")) }

def coloredInstruction : Instruction where
  trace := some [coloredNode]
  collectBy := none
  traceNodeTmpl := none

/-- The context of a caller with the request headers `headers`. -/
def callerContext (headers : Headers) : RenderingContext :=
  { RenderingContext.new 0 with requestHeaders := some headers }

def contextText (headersText : String) : String :=
  "\x7b\"requestHeaders\":" ++ (headersText ++ ",\"path\":\"\",\"params\":\x7b\x7d,\"method\":\"\"," ++
    "\"result\":\x7b\"responseHeaders\":\x7b\x7d,\"result\":null,\"status\":null\x7d," ++
    "\"invokeResult\":null,\"delayMillis\":0.0\x7d")

def coloredInstructionText : String :=
  "\x7b\"trace\":[" ++ ("\x7b\"call\":\"grpc-a\",\"by\":\"grpc\",\"method\":\"POST\",\"code\":200," ++
    "\"headers\":\x7b\"color\":\"red\"\x7d,\"responseHeaders\":\x7b\x7d,\"queries\":\x7b\x7d," ++
    "\"callTestMethod\":0,\"delay\":0.0,\"errorByPercent\":0\x7d],\"times\":1,\"threads\":1," ++
    "\"qps\":0,\"propagateHeaders\":\"\",\"collectBy\":null,\"traceNodeTmpl\":null,\"log\":true," ++
    "\"rr\":\x7b\x7d\x7d")

/-- The texts differ in their third character. -/
theorem coloredInstructionText_ne (headersText : String) :
    coloredInstructionText ≠ contextText headersText := by
  intro h
  have htexts := congrArg String.toList h
  unfold coloredInstructionText contextText at htexts
  rw [String.toList_append, String.toList_append (s := "\x7b\"requestHeaders\":")] at htexts
  have hthird := congrArg (fun cs : List Char => cs[2]?) htexts
  rw [List.getElem?_append_left (by decide), List.getElem?_append_left (by decide)] at hthird
  exact absurd hthird (by decide)

/-- A JSON library as far as it is used on the instruction and one context. -/
def coloredText (headers : Headers) (headersText : String) : JsonText where
  write
    | .obj (("requestHeaders", _) :: _) => contextText headersText
    | _ => coloredInstructionText
  read source :=
    if source = contextText headersText then some ((callerContext headers).toJson 0)
    else if source = coloredInstructionText then some coloredInstruction.toJson else none

/-- Transports that deliver everything. -/
def coloredTransports (headers : Headers) (headersText : String) : Transports Unit where
  hosts _ := Host.bare
  http := { Http.sample with
    arrive := fun req => .ok ⟨0, 0, HttpController.transformRequestHeaders (found req), "/execute", ∅⟩ }
  found := found
  attachments := id
  client := GrpcClient.sample
  text := coloredText headers headersText
where
  found (req : HttpRequest) : List (String × List String) := req.headers.map fun f => (f.1, [f.2.getD ""])

theorem coloredTransports_unchanged (headers : Headers) (headersText : String) :
    (coloredTransports headers headersText).Unchanged := by
  constructor
  · intro req a hdistinct harrive
    obtain rfl := Except.ok.inj harrive
    refine ⟨⟨?_, fun f hf => ⟨f.1, rfl, List.mem_map_of_mem hf⟩⟩, rfl⟩
    show ((req.headers.map _).map _).Nodup
    rw [List.map_map]
    exact List.pairwise_map.mpr hdistinct
  · intro sent k v hk
    exact hk

section
variable (headers : Headers) (headersText : String)

theorem colored_read : (coloredTransports headers headersText).text.read
    ((coloredTransports headers headersText).text.write ((callerContext headers).toJson 0)) =
      some ((callerContext headers).toJson 0) := if_pos rfl

theorem colored_read_instruction :
    (coloredTransports headers headersText).text.read
      ((coloredTransports headers headersText).text.write coloredInstruction.toJson) =
        some coloredInstruction.toJson := by
  have hwrite : (coloredTransports headers headersText).text.write coloredInstruction.toJson =
      coloredInstructionText := rfl
  rw [hwrite]
  unfold coloredTransports coloredText
  simp only
  rw [if_neg (coloredInstructionText_ne headersText), if_pos trivial]

theorem colored_hop : Hop (coloredTransports headers headersText) coloredInstruction coloredNode
    (AList.singleton "color" (some "red")) (callerContext headers) 0 .grpc (some headers) := by
  have hecho : ∃ j ctx', ctx'.requestHeaders = some headers ∧
      GrpcAService.echo ((coloredTransports headers headersText).hosts 0)
        (coloredTransports headers headersText).text 1
        (GrpcRemoteInvoker.request (coloredTransports headers headersText).text coloredInstruction ∅
          (callerContext headers) 0) = .ok (j, ctx') := by
    unfold GrpcAService.echo GrpcAService.readValue GrpcRemoteInvoker.request
    simp only [colored_read_instruction headers headersText, colored_read, decodeContext_toJson,
      decodeInstruction_encode, bind, Except.bind]
    exact ⟨_, _, rfl, rfl⟩
  obtain ⟨j, ctx', hheaders, hecho⟩ := hecho
  have hcall : (coloredTransports headers headersText).client.calls (orNull coloredNode.call) = true := by
    have h : GrpcClient.sample.calls "grpc-a" = true := by rfl
    exact h
  have hput : (coloredTransports headers headersText).client.attachable
      (AList.singleton "color" (some "red")) = true := rfl
  have hqueries : coloredNode.queries = some ∅ := rfl
  rw [← hheaders]
  exact Hop.grpc hqueries hcall hput hecho

end

/-- A call over HTTP, and one over gRPC of a caller that has got the header itself. -/
theorem visible_iff_sample :
    (∃ received, Hop (coloredTransports ∅ "\x7b\x7d") coloredInstruction coloredNode
      (AList.singleton "color" (some "red")) (callerContext ∅) 0 .http received ∧
        Visible .http (AList.singleton "color" (some "red")) received) ∧
    Visible .grpc (AList.singleton "color" (some "red")) (some (AList.singleton "color" (some "red"))) := by
  have hnode : coloredInstruction.nodes.head? = some coloredNode := rfl
  have hown : coloredNode.headers = some (AList.singleton "color" (some "red")) := rfl
  constructor
  · have hkeeps : HttpRemoteInvoker.Keeps (AList.singleton "color" (some "red")) := by
      refine HttpRemoteInvoker.keeps_of_distinct (fun k hk l hl _ => ?_) fun k hk => ?_
      · rw [List.mem_singleton.mp hk, List.mem_singleton.mp hl]
      · rw [List.mem_singleton.mp hk]
        decide
    have hhop : Hop (coloredTransports ∅ "\x7b\x7d") coloredInstruction coloredNode
      (AList.singleton "color" (some "red")) (callerContext ∅) 0 .http _ :=
      Hop.http (p := 0) (r := ()) { rand := () } rfl
    exact ⟨_, hhop, (visible_iff (coloredTransports_unchanged _ _) hnode hown (colored_read _ _) hhop).mpr
      hkeeps⟩
  · have hhop := colored_hop (AList.singleton "color" (some "red")) "\x7b\"color\":\"red\"\x7d"
    refine (visible_iff (coloredTransports_unchanged _ _) hnode hown (colored_read _ _) hhop).mpr ?_
    intro k text hk
    exact hk

/-- A caller that got no header: the callee gets none. -/
theorem not_visible : ¬ ∀ (tr : Transports Unit) (i : Instruction) (node : PowerTraceNode)
    (own : Headers) (ctx : RenderingContext) (t : ThreadId) (w : Wire) (received : Option Headers),
      tr.Unchanged → i.nodes.head? = some node → node.headers = some own →
        Hop tr i node own ctx t w received → Visible w own received := by
  intro h
  obtain ⟨headers, name, hheaders, -, hvalue⟩ :=
    h _ _ _ _ _ _ _ _ (coloredTransports_unchanged _ _) rfl rfl (colored_hop ∅ "\x7b\x7d") "color" "red" rfl
  obtain rfl := Option.some.inj hheaders
  cases hvalue

end Powerful
