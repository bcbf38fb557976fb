import Mathlib
import Powerful.Network
import Powerful.SimplifiedNode

/-! # The HTTP protocol

`HttpRemoteInvoker.request` builds the request for the first node of an instruction.  Where it
goes is up to the HTTP layer, `Http`: it accepts the URI or not, and finds the process, the
headers, the path and the parameters that the request arrives with.  The receiver reads the
instruction from the body or from the parameter `_body` (`HttpController.receive`) and answers
with the result and status 200, or with the message of an exception and its status
(`HttpController.answer`).  The HTTP layer delivers status and body of an answer unchanged.

`arrived_instruction` says which instruction arrives. -/

namespace Powerful

variable {ρ : Type}

/-- Where a request arrives, and with what. -/
structure Arrival where
  process : ℕ
  thread : ThreadId
  requestHeaders : Headers
  path : String
  params : Headers

/-- A request as it is handed to the HTTP client. -/
structure HttpRequest where
  method : String
  url : String
  headers : List (String × Option String)
  body : Option Instruction

/-- The HTTP layer: client, network and containers.  What the containers add to the headers of an
answer may depend on its status and body. -/
structure Http where
  uri : String → Bool
  arrive : HttpRequest → Except Exc Arrival
  responseHeaders : ℤ → String → List (String × Option String) → Headers
  errorPage : Exc → String
  arrays : ArrayDiff
  text : JsonText

/-! ### The sender -/

/-- `HttpHeaders.set`: a name replaces an equal one in any spelling. -/
def setHeader (name : String) (value : Option String) (headers : List (String × Option String)) :
    List (String × Option String) :=
  headers.filter (fun f => f.1.toList.map Char.toLower ≠ name.toList.map Char.toLower) ++
    [(name, value)]

/-- The headers of a message, set one after the other. -/
def httpHeaders (headers : Headers) : List (String × Option String) :=
  headers.entries.foldl (fun fields e => setHeader e.1 e.2 fields) []

namespace HttpRemoteInvoker
variable (h : Host ρ) (http : Http)

/-- The headers of the request: those of the node, and the content type. -/
def headers (own : Headers) : List (String × Option String) :=
  setHeader "Content-Type" (some "application/json;charset=UTF-8") (httpHeaders own)

def renderQueries (v : View) : List (Sigma fun _ : String => Option String) → ρ →
    Except Exc (List String) × ρ
  | [], r => (.ok [], r)
  | e :: es, r => match renderNullable h v e.2 r with
    | (.error e, r) => (.error e, r)
    | (.ok value, r) => match renderQueries v es r with
      | (.error e, r) => (.error e, r)
      | (.ok params, r) => (.ok ((e.1 ++ "=" ++ orNull value) :: params), r)

/-- The target, with a scheme. -/
def baseUrl (node : PowerTraceNode) : String :=
  let url := orNull node.call ++ "/execute"
  if startsWith url "http:" then url else "http://" ++ url

def withQuery (url : String) (params : List String) : String :=
  if params = [] then url else url ++ "?" ++ String.intercalate "&" params

/-- The body, and the parameters with `_body` if the method has no body. -/
def carry (i : Instruction) (method : Option String) (params : List String) :
    Except Exc (String × Option Instruction × List String) :=
  match method with
  | some "POST" => .ok ("POST", some i, params)
  | some "PUT" => .ok ("PUT", some i, params)
  | some "GET" => do
      let body ← encodeBody h http.arrays http.text i
      .ok ("GET", none, params ++ ["_body=" ++ body])
  | some "DELETE" => do
      let body ← encodeBody h http.arrays http.text i
      .ok ("DELETE", none, params ++ ["_body=" ++ body])
  | method => .error (.illegalArgument ("The method '" ++ orNull method ++ "' is not supported."))

/-- The request to the target of a node, once its queries are rendered. -/
def build (i : Instruction) (node : PowerTraceNode) (own : Headers) (params : List String) :
    Except Exc HttpRequest := do
  let (method, body, params) ← carry h http i node.method params
  logged h http.arrays i
  let url := withQuery (baseUrl node) params
  if http.uri url then .ok ⟨method, url, headers own, body⟩
  else .error (.illegalArgument "Illegal character in URI")

/-- The request for the first node of the instruction. -/
def request (i : Instruction) (v : View) (r : ρ) : Except Exc HttpRequest × ρ :=
  match i.nodes.head? with
  | none => (.error .nullPointer, r)
  | some node => match node.headers, node.queries with
    | some own, some queries => match renderQueries h v queries.entries r with
      | (.error e, r) => (.error e, r)
      | (.ok params, r) => (build h http i node own params, r)
    | _, _ => (.error .nullPointer, r)

/-- A request that is made is made for the first node. -/
theorem request_ok {i : Instruction} {v : View} {r r' : ρ} {req : HttpRequest}
    (hreq : request h http i v r = (.ok req, r')) :
    ∃ node own queries params, i.nodes.head? = some node ∧ node.headers = some own ∧
      node.queries = some queries ∧ renderQueries h v queries.entries r = (.ok params, r') ∧
      build h http i node own params = .ok req := by
  unfold request at hreq
  cases hnode : i.nodes.head? with
  | none =>
      rw [hnode] at hreq
      cases hreq
  | some node =>
      rw [hnode] at hreq
      simp only at hreq
      cases hown : node.headers with
      | none =>
          rw [hown] at hreq
          cases hreq
      | some own =>
          cases hqueries : node.queries with
          | none =>
              rw [hown, hqueries] at hreq
              cases hreq
          | some queries =>
              rw [hown, hqueries] at hreq
              simp only at hreq
              cases hparams : renderQueries h v queries.entries r with
              | mk out r₁ =>
                  rw [hparams] at hreq
                  cases out with
                  | error e => cases hreq
                  | ok params =>
                      obtain ⟨hbuild, rfl⟩ := Prod.mk.inj hreq
                      exact ⟨node, own, queries, params, rfl, hown, hqueries, hparams, hbuild⟩

/-- A request is built from what is carried, if the HTTP client accepts its URI. -/
theorem build_iff {i : Instruction} {node : PowerTraceNode} {own : Headers} {params : List String}
    {req : HttpRequest} : build h http i node own params = .ok req ↔
      ∃ carried, carry h http i node.method params = .ok carried ∧ logged h http.arrays i = .ok () ∧
        http.uri (withQuery (baseUrl node) carried.2.2) = true ∧
        req = ⟨carried.1, withQuery (baseUrl node) carried.2.2, headers own, carried.2.1⟩ := by
  unfold build
  constructor
  · intro hbuild
    obtain ⟨carried, hcarry, hbuild⟩ := ok_of_bind hbuild
    obtain ⟨_, hlogged, hbuild⟩ := ok_of_bind hbuild
    simp only at hbuild
    split at hbuild
    · rename_i huri
      exact ⟨carried, hcarry, hlogged, huri, (Except.ok.inj hbuild).symm⟩
    · cases hbuild
  · rintro ⟨carried, hcarry, hlogged, huri, rfl⟩
    rw [hcarry, hlogged]
    simp only [bind, Except.bind, huri, if_true]

/-- What is carried: a body, which is the instruction itself, or one more parameter. -/
theorem carry_cases {i : Instruction} {method : Option String} {params : List String}
    {carried : String × Option Instruction × List String}
    (hcarry : carry h http i method params = .ok carried) :
    (carried.2.1 = some i ∧ carried.2.2 = params) ∨
      ∃ body, encodeBody h http.arrays http.text i = .ok body ∧ carried.2.1 = none ∧
        carried.2.2 = params ++ ["_body=" ++ body] := by
  unfold carry at hcarry
  split at hcarry
  · obtain rfl := Except.ok.inj hcarry
    exact Or.inl ⟨rfl, rfl⟩
  · obtain rfl := Except.ok.inj hcarry
    exact Or.inl ⟨rfl, rfl⟩
  · obtain ⟨body, hbody, hcarry⟩ := ok_of_bind hcarry
    obtain rfl := Except.ok.inj hcarry
    exact Or.inr ⟨body, hbody, rfl, rfl⟩
  · obtain ⟨body, hbody, hcarry⟩ := ok_of_bind hcarry
    obtain rfl := Except.ok.inj hcarry
    exact Or.inr ⟨body, hbody, rfl, rfl⟩
  · cases hcarry

/-- The parameters do not decide whether the instruction is carried. -/
theorem carry_eq_map (i : Instruction) (method : Option String) (params : List String) :
    carry h http i method params =
      (carry h http i method []).map fun carried => (carried.1, carried.2.1, params ++ carried.2.2) := by
  unfold carry
  split
  · simp [Except.map]
  · simp [Except.map]
  · cases encodeBody h http.arrays http.text i with
    | error e => rfl
    | ok body => rfl
  · cases encodeBody h http.arrays http.text i with
    | error e => rfl
    | ok body => rfl
  · rfl

end HttpRemoteInvoker

/-! ### The receiver -/

namespace HttpController
variable (h : Host ρ) (http : Http)

/-- The instruction a request carries. -/
def readBody (req : HttpRequest) (params : Headers) : Except Exc Instruction :=
  match req.body with
  | some i => postBody h i
  | none => match (params.lookup "_body").join with
    | none => .error .nullPointer
    | some body => decodeBody h http.text body

/-- The instruction and the context that the service gets. -/
def receive (req : HttpRequest) (a : Arrival) : Except Exc Delivery := do
  let instruction ← readBody h http req a.params
  .ok { process := a.process, thread := a.thread, instruction := instruction,
        requestHeaders := a.requestHeaders, path := a.path,
        params := if req.body.isSome then a.params else a.params.erase "_body",
        method := req.method }

/-- The status that stands for an exception. -/
def statusOf (e : Exc) : ℤ :=
  match e.getCause with
  | some (.statusCode code _) => code
  | _ => 500

/-- `PowerfulResponse.makeHttpResponse`: status, body and headers. -/
def makeHttpResponse (response : PowerfulResponse) (headers : Headers) :
    ℤ × String × List (String × Option String) :=
  (200, javaText h response.result, httpHeaders headers)

/-- Status, body and headers of the answer; without response headers of the first node there
is none. -/
def answer (t : ThreadId) (out : Except Exc Json) (s : St ρ) :
    Except Exc (ℤ × String × List (String × Option String)) :=
  match s.nodes.head?.bind PowerTraceNode.responseHeaders with
  | none => .error .nullPointer
  | some headers => match out with
    | .ok _ => .ok (makeHttpResponse h (s.ctx.getResult t) headers)
    | .error e => .ok (statusOf e, e.getMessage.getD "", httpHeaders headers)

end HttpController

/-! ### The protocol -/

namespace Http
variable (http : Http)

/-- The body that the client reads; there is none behind some statuses. -/
def entityBody (status : ℤ) (body : String) : Json :=
  if body = "" ∨ (100 ≤ status ∧ status < 200) ∨ status = 204 ∨ status = 304 then .null else .str body

/-- `PowerfulResponse.fromHttp`: the answer as the sender stores it.  The error handler of the
`RestTemplate` does nothing, so an error status is no exception of the client. -/
def fromHttp (status : ℤ) (body : String) (headers : List (String × Option String)) :
    PowerfulResponse where
  responseHeaders := http.responseHeaders status body headers
  result := entityBody status body
  status := some (toString status)

/-- The HTTP protocol of process `p` towards processes with the hosts `hosts`. -/
def protocol (hosts : ℕ → Host ρ) (p : ℕ) : Protocol ρ where
  send i v r :=
    match HttpRemoteInvoker.request (hosts p) http i v r with
    | (.error e, r) => (.failed e, r)
    | (.ok req, r) => match http.arrive req with
      | .error e => (.failed e, r)
      | .ok a => match HttpController.receive (hosts a.process) http req a with
        | .error e => (.refused (http.fromHttp (if req.body.isSome then 400 else 500)
            (http.errorPage e) []), r)
        | .ok d => (.arrived d, r)
  reply d out s :=
    match HttpController.answer (hosts d.process) d.thread out s with
    | .error e => .ok (http.fromHttp 500 (http.errorPage e) [])
    | .ok (status, body, headers) => .ok (http.fromHttp status body headers)

/-- An instruction that arrives has been requested, brought to a process and received there. -/
theorem arrived_inv {hosts : ℕ → Host ρ} {p : ℕ} {sent : Instruction} {v : View} {r r' : ρ}
    {d : Delivery} (h : (http.protocol hosts p).send sent v r = (.arrived d, r')) :
    ∃ req a, HttpRemoteInvoker.request (hosts p) http sent v r = (.ok req, r') ∧
      http.arrive req = .ok a ∧ HttpController.receive (hosts a.process) http req a = .ok d := by
  simp only [protocol] at h
  cases hreq : HttpRemoteInvoker.request (hosts p) http sent v r with
  | mk out r₁ =>
      rw [hreq] at h
      cases out with
      | error e => cases h
      | ok req =>
          simp only at h
          cases harrive : http.arrive req with
          | error e =>
              rw [harrive] at h
              cases h
          | ok a =>
              rw [harrive] at h
              simp only at h
              cases hreceive : HttpController.receive (hosts a.process) http req a with
              | error e =>
                  rw [hreceive] at h
                  cases h
              | ok d' =>
                  rw [hreceive] at h
                  obtain ⟨hd, rfl⟩ := Prod.mk.inj h
                  obtain rfl := Sending.arrived.inj hd
                  exact ⟨req, a, rfl, harrive, hreceive⟩

/-- **Arrivals**: an instruction in the body arrives as it was sent, less what only a case has;
any other one is read from the parameter `_body`. -/
theorem arrived_instruction {hosts : ℕ → Host ρ} {p : ℕ} {sent : Instruction} {v : View} {r r' : ρ}
    {d : Delivery} (h : (http.protocol hosts p).send sent v r = (.arrived d, r')) :
    d.instruction = { sent with caseInfo := none } ∨
      ∃ body, decodeBody (hosts d.process) http.text body = .ok d.instruction := by
  obtain ⟨req, a, hreq, -, hreceive⟩ := http.arrived_inv h
  obtain ⟨i, hread, hreceive⟩ := ok_of_bind hreceive
  obtain rfl := Except.ok.inj hreceive
  obtain ⟨node, own, queries, params, -, -, -, -, hbuild⟩ := HttpRemoteInvoker.request_ok _ _ hreq
  obtain ⟨carried, hcarry, -, -, rfl⟩ := (HttpRemoteInvoker.build_iff _ _).mp hbuild
  simp only
  unfold HttpController.readBody at hread
  rcases HttpRemoteInvoker.carry_cases _ _ hcarry with ⟨hbody, -⟩ | ⟨body, -, hbody, -⟩
  · simp only [hbody] at hread
    rw [postBody_eq] at hread
    exact Or.inl (Except.ok.inj hread).symm
  · simp only [hbody] at hread
    split at hread
    · cases hread
    · exact Or.inr ⟨_, hread⟩

end Http

/-- An HTTP layer in which every request reaches one process, and a JSON library that is used
for bodies only. -/
def Http.sample : Http where
  uri _ := true
  arrive _ := .ok ⟨0, 0, ∅, "/execute", ∅⟩
  responseHeaders _ _ fields := fields.foldl (fun headers f => headers.insert f.1 f.2) ∅
  errorPage _ := ""
  arrays := noArrays
  text := { write := fun _ => "", read := fun _ => none }

/-- Processes that speak HTTP. -/
def Http.processes (http : Http) : Network Unit := fun p =>
  { host := .bare
    protocols := fun name => if name = "http" then some (http.protocol (fun _ => .bare) p) else none }

theorem Http.sample_delivers : (Http.processes Http.sample).Delivers := by
  intro p name protocol hprotocol sent v r d r' hsend
  simp only [processes] at hprotocol
  split at hprotocol
  · obtain rfl := Option.some.inj hprotocol
    rcases Http.sample.arrived_instruction hsend with hd | ⟨body, hbody⟩
    · rw [hd]
      exact ⟨rfl, rfl⟩
    · obtain ⟨source, -, hread⟩ := ok_of_bind hbody
      cases hread
  · cases hprotocol

end Powerful
