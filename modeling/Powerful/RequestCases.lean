import Mathlib
import Powerful.CaseValidator
import Powerful.SimplifiedNode
import Powerful.Workers

/-! # Request cases

The cases of the configuration, and the controller that executes them.  `execute` rewrites the
calls of a case by the target mapping, puts a node for the process itself in front of its
trace, runs it, and validates the result if it is asked to.  `executeAll` does so for the cases
of a set, one after the other, and prints a verdict for each.

An exception of one case is handled nowhere: it ends the loop.  `executeAll_complete_iff` says
that the report is complete if and only if no case of the set throws. -/

namespace Powerful

variable {ρ : Type}

/-! ### The configured cases -/

/-- The sets of cases and the target mapping, each in the order of its map. -/
structure StaticResources where
  rawCaseSets : Option (List (String × List (String × Json)))
  targetMapping : List (String × String)

namespace StaticResources
variable (res : StaticResources)

/-- All cases; of two cases of one name the one of the later set is kept. -/
def rawCases : List (String × Json) :=
  (res.rawCaseSets.getD []).foldl
    (fun cases set => set.2.foldl (fun cases c => Json.putField c.1 c.2 cases) cases) []

/-- Read the case that an object of the configuration describes. -/
def readCase (h : Host ρ) : Option Json → Except Exc (Option Instruction)
  | none | some .null => .ok none
  | some raw => match decodeRequestCase h true raw with
    | .ok requestCase => .ok (some requestCase)
    | .error e => .error (.illegalState
        ("com.fasterxml.jackson.databind.JsonMappingException: " ++ orNull e.getMessage))

/-- Read the case of a name, if there is one. -/
def getCase (h : Host ρ) (name : String) : Except Exc (Option Instruction) :=
  readCase h (res.rawCases.lookup name)

/-- The text of the raw case; `write` is a mapper that indents. -/
def getRawCaseString (write : Json → String) (name : String) : String :=
  match res.rawCases.lookup name with
  | none | some .null => "Not Found"
  | some raw => write raw

/-- Rewrite a call by the target mapping: its first segment, or every name in angle brackets. -/
def replaceTargets (lib : JavaLib) (trace : Bool) :
    List (String × String) → Option String → Except Exc (Option String)
  | [], src => .ok src
  | (name, value) :: mapping, src =>
      if value = "" then replaceTargets lib trace mapping src
      else match src with
        | none => .error .nullPointer
        | some s => do
            let s ← if trace then
                if '/' ∈ s.toList then lib.replaceAll ("^" ++ name ++ "/") (value ++ "/") s
                else lib.replaceAll ("^" ++ name ++ "$") value s
              else lib.replaceAll ("<" ++ name ++ ">") value s
            replaceTargets lib trace mapping (some s)

def replaceCalls (lib : JavaLib) (trace : Bool) :
    List PowerTraceNode → Except Exc (List PowerTraceNode)
  | [] => .ok []
  | node :: nodes => do
      let call ← replaceTargets lib trace res.targetMapping node.call
      let nodes ← replaceCalls lib trace nodes
      .ok ({ node with call := call } :: nodes)

def processTargetMappingForTrace (lib : JavaLib) (requestCase : Instruction) :
    Except Exc Instruction :=
  match requestCase.trace with
  | none => .ok requestCase
  | some trace => do
      let trace ← res.replaceCalls lib true trace
      .ok { requestCase with trace := some trace }

def processTargetMapping (lib : JavaLib) (instruction : Instruction) : Except Exc Instruction :=
  match instruction.trace with
  | none => .error .nullPointer
  | some trace => do
      let trace ← res.replaceCalls lib false trace
      .ok { instruction with trace := some trace }

end StaticResources

/-! ### The controller -/

/-- A line of the report on a set of cases. -/
inductive Line where
  | executing (name : String)
  | ok
  | failed (name : String)
  | caseText (raw : String)
  | resultText (result : String)
deriving DecidableEq

def Line.text : Line → String
  | executing name => "=======executing: " ++ name ++ "======="
  | ok => "OK\n"
  | failed name => "!!!!!!!failed: " ++ name ++ "!!!!!!!"
  | caseText raw => "case:\n" ++ raw
  | resultText result => "result: " ++ result

/-- The writer of a response. -/
structure Writer where
  lines : List Line := []
  closed : Bool := false

def Writer.println (w : Writer) (l : Line) : Writer := { w with lines := w.lines ++ [l] }

def Writer.close (w : Writer) : Writer := { w with closed := true }

/-- The controller; `text` and `raw` are the mappers that write results and raw cases, `thread`
is the thread that serves the request. -/
structure RequestCaseApiController (ρ : Type) where
  staticResources : StaticResources
  powerful : Service ρ
  lib : JavaLib
  text : JsonText
  raw : Json → String
  thread : ThreadId := 0

namespace RequestCaseApiController
variable (api : RequestCaseApiController ρ)

/-- The instruction that a case stands for: its calls are rewritten, and the first node stands
for the process itself. -/
def prepare (requestCase : Option Instruction) : Except Exc Instruction :=
  match requestCase with
  | none => .error .nullPointer
  | some requestCase => do
      let instruction ← api.staticResources.processTargetMappingForTrace api.lib requestCase
      let instruction ← api.staticResources.processTargetMapping api.lib instruction
      .ok { instruction with trace := some ({} :: instruction.nodes) }

/-- The state a case starts in. -/
def begin (instruction : Instruction) (params : Headers) (w : World ρ) : St ρ where
  nodes := instruction.nodes
  ctx := { RenderingContext.new api.thread with params := params }
  world := w
  request := instruction

/-- Execute a case; the flag says whether the result passed the validation. -/
def execute (requestCase : Option Instruction) (params : Headers) (validate : Bool) (w : World ρ) :
    Except Exc (Json × Option Bool) × World ρ :=
  match api.prepare requestCase with
  | .error e => (.error e, w)
  | .ok instruction => match api.powerful.execute instruction api.thread (api.begin instruction params w) with
    | (.error e, s) => (.error e, s.world)
    | (.ok result, s) =>
        if validate then
          match CaseValidator.validate api.powerful.host api.lib
              ((instruction.caseInfo.map CaseInfo.expect).getD .null) result with
          | .ok passed => (.ok (result, some passed), s.world)
          | .error e => (.error e, s.world)
        else (.ok (result, none), s.world)

/-- Execute and validate the case that was read. -/
def executeRead (params : Headers) (read : Except Exc (Option Instruction)) (w : World ρ) :
    Except Exc (Json × Bool) × World ρ :=
  match read with
  | .error e => (.error e, w)
  | .ok requestCase => match api.execute requestCase params true w with
    | (.ok (result, passed), w) => (.ok (result, passed.getD false), w)
    | (.error e, w) => (.error e, w)

/-- Read, execute and validate the case of a name. -/
def executeCase (params : Headers) (name : String) (w : World ρ) :
    Except Exc (Json × Bool) × World ρ :=
  api.executeRead params (api.staticResources.getCase api.powerful.host name) w

/-- The lines that a result is reported with. -/
def verdict (name : String) (outcome : Json × Bool) : List Line :=
  if outcome.2 then [.ok]
  else [.failed name, .caseText (api.staticResources.getRawCaseString api.raw name),
    .resultText (api.text.write (.obj [("result", outcome.1), ("passed", .bool outcome.2)]))]

def executeDuringResponse (params : Headers) (name : String) (out : Writer) (w : World ρ) :
    Except Exc Unit × Writer × World ρ :=
  let out := out.println (.executing name)
  match api.executeCase params name w with
  | (.error e, w) => (.error e, out, w)
  | (.ok outcome, w) => (.ok (), (api.verdict name outcome).foldl Writer.println out, w)

/-- The loop over the names. -/
def executeNames (params : Headers) : List String → Writer → World ρ →
    Except Exc Unit × Writer × World ρ
  | [], out, w => (.ok (), out, w)
  | name :: names, out, w => match api.executeDuringResponse params name out w with
    | (.ok (), out, w) => executeNames params names out w
    | (.error e, out, w) => (.error e, out, w)

/-- The loop, and the writer closed behind it. -/
def executeAndClose (params : Headers) (names : List String) (w : World ρ) :
    Except Exc Unit × Writer × World ρ :=
  match api.executeNames params names {} w with
  | (.ok (), out, w) => (.ok (), out.close, w)
  | (.error e, out, w) => (.error e, out, w)

/-- `/executeAll/{set}`; an unknown set is empty. -/
def executeAllOf (set : String) (params : Headers) (w : World ρ) :
    Except Exc Unit × Writer × World ρ :=
  match api.staticResources.rawCaseSets with
  | none => (.error .nullPointer, {}, w)
  | some sets => api.executeAndClose params (((sets.lookup set).getD []).map Prod.fst) w

/-- `/executeAll`. -/
def executeAll (params : Headers) (w : World ρ) : Except Exc Unit × Writer × World ρ :=
  api.executeAndClose params (api.staticResources.rawCases.map Prod.fst) w

/-! ### Reports on sets -/

/-- What a complete report says about a case: its name, then one verdict. -/
def Reported (name : String) (lines : List Line) : Prop :=
  lines = [.executing name, .ok] ∨
    ∃ raw result, lines = [.executing name, .failed name, .caseText raw, .resultText result]

/-- The report has every case once, in order, each with one verdict, and it is closed. -/
def Complete (names : List String) (out : Writer) : Prop :=
  out.closed = true ∧ ∃ blocks, List.Forall₂ Reported names blocks ∧ out.lines = blocks.flatten

/-- The outcomes of the cases, each executed in the world that the ones before it left. -/
def outcomes (params : Headers) : List String → World ρ → List (Except Exc (Json × Bool))
  | [], _ => []
  | name :: names, w =>
      (api.executeCase params name w).1 :: outcomes params names (api.executeCase params name w).2

/-- No case throws: it is there, its run returns and so does its validation. -/
def NoneThrows (params : Headers) (names : List String) (w : World ρ) : Prop :=
  ∀ o ∈ api.outcomes params names w, ∃ r, o = .ok r

theorem lines_foldl_println (ls : List Line) (out : Writer) :
    ls.foldl Writer.println out = { out with lines := out.lines ++ ls } := by
  induction ls generalizing out with
  | nil => simp
  | cons l ls ih =>
      rw [List.foldl_cons, ih]
      simp [Writer.println]

theorem reported_verdict (name : String) (outcome : Json × Bool) :
    Reported name (.executing name :: api.verdict name outcome) := by
  unfold verdict
  by_cases hpassed : outcome.2 = true
  · rw [if_pos hpassed]
    exact Or.inl rfl
  · rw [if_neg hpassed]
    exact Or.inr ⟨_, _, rfl⟩

/-- One case: a result is reported, an exception leaves only the name. -/
theorem executeDuringResponse_eq (params : Headers) (name : String) (out : Writer) (w : World ρ) :
    api.executeDuringResponse params name out w =
      match api.executeCase params name w with
      | (.error e, w) => (.error e, { out with lines := out.lines ++ [.executing name] }, w)
      | (.ok outcome, w) => (.ok (),
          { out with lines := out.lines ++ .executing name :: api.verdict name outcome }, w) := by
  unfold executeDuringResponse
  cases api.executeCase params name w with
  | mk outcome w' =>
      cases outcome with
      | error e => rfl
      | ok outcome =>
          simp only [lines_foldl_println]
          simp [Writer.println]

/-- **The loop**: either no case throws and all are reported, or one throws and the loop ends
there. -/
theorem executeNames_cases (params : Headers) (names : List String) (out : Writer) (w : World ρ) :
    (api.NoneThrows params names w ∧ ∃ blocks w', List.Forall₂ Reported names blocks ∧
      api.executeNames params names out w =
        (.ok (), { out with lines := out.lines ++ blocks.flatten }, w')) ∨
    (¬ api.NoneThrows params names w ∧ ∃ e out' w',
      api.executeNames params names out w = (.error e, out', w') ∧ out'.closed = out.closed) := by
  induction names generalizing out w with
  | nil => exact Or.inl ⟨by simp [NoneThrows, outcomes], [], w, .nil, by simp [executeNames]⟩
  | cons name names ih =>
      have hthrows : api.NoneThrows params (name :: names) w ↔
          (∃ r, (api.executeCase params name w).1 = .ok r) ∧
            api.NoneThrows params names (api.executeCase params name w).2 := by
        unfold NoneThrows
        rw [outcomes, List.forall_mem_cons]
      rw [hthrows, executeNames, executeDuringResponse_eq]
      cases hcase : api.executeCase params name w with
      | mk outcome w₁ =>
          cases outcome with
          | error e =>
              refine Or.inr ⟨?_, e, _, w₁, rfl, rfl⟩
              rintro ⟨⟨r, hr⟩, -⟩
              cases hr
          | ok outcome =>
              simp only
              rcases ih { out with lines := out.lines ++ .executing name :: api.verdict name outcome } w₁
                with ⟨hnone, blocks, w', hblocks, hrun⟩ | ⟨hsome, e, out', w', hrun, hclosed⟩
              · refine Or.inl ⟨⟨⟨outcome, rfl⟩, hnone⟩, _ :: blocks, w',
                  .cons (api.reported_verdict name outcome) hblocks, ?_⟩
                rw [hrun]
                simp
              · refine Or.inr ⟨fun h => hsome h.2, e, out', w', hrun, hclosed⟩

/-- The report on a list of cases is complete if and only if none of them throws. -/
theorem executeAndClose_complete_iff (params : Headers) (names : List String) (w : World ρ) :
    Complete names (api.executeAndClose params names w).2.1 ↔ api.NoneThrows params names w := by
  unfold executeAndClose
  rcases api.executeNames_cases params names {} w
    with ⟨hnone, blocks, w', hblocks, hrun⟩ | ⟨hsome, e, out', w', hrun, hclosed⟩
  · rw [hrun]
    exact ⟨fun _ => hnone, fun _ => ⟨rfl, blocks, hblocks, by simp [Writer.close]⟩⟩
  · rw [hrun]
    constructor
    · rintro ⟨hopen, -⟩
      simp only [hclosed] at hopen
      cases hopen
    · exact fun hnone => absurd hnone hsome

/-- **A verdict for every case**: `/executeAll` and `/executeAll/{set}` report on every case of
the set and close the report if and only if no case throws. -/
theorem executeAll_complete_iff (params : Headers) (w : World ρ) {set : String}
    {sets : List (String × List (String × Json))} {cases : List (String × Json)}
    (hsets : api.staticResources.rawCaseSets = some sets) (hset : sets.lookup set = some cases) :
    (Complete (api.staticResources.rawCases.map Prod.fst) (api.executeAll params w).2.1 ↔
      api.NoneThrows params (api.staticResources.rawCases.map Prod.fst) w) ∧
    (Complete (cases.map Prod.fst) (api.executeAllOf set params w).2.1 ↔
      api.NoneThrows params (cases.map Prod.fst) w) := by
  refine ⟨api.executeAndClose_complete_iff params _ w, ?_⟩
  unfold executeAllOf
  rw [hsets]
  simp only [hset, Option.getD_some]
  exact api.executeAndClose_complete_iff params _ w

/-- Two cases of which the first expects what no result is compared with. -/
def sampleApi : RequestCaseApiController Unit where
  staticResources :=
    { rawCaseSets := some [("first", [
        ("refused", .obj [("trace", .arr []), ("traceNodeTmpl", .str "ok"), ("expect", .bool true)]),
        ("fine", .obj [("trace", .arr []), ("traceNodeTmpl", .str "ok"), ("expect", .str "ok")])]),
        ("second", [("fine", .obj [("trace", .arr []), ("traceNodeTmpl", .str "ok"),
          ("expect", .str "ok")])])]
      targetMapping := [] }
  powerful := { host := .bare, invokers := fun _ => none }
  lib := { «matches» := fun _ _ => none, replaceAll := fun _ _ s => .ok s, parseDouble := fun _ => none }
  text := { write := fun _ => "", read := fun _ => none }
  raw := fun _ => ""

theorem executeAll_complete_iff_sample :
    (Complete ["refused", "fine"] (sampleApi.executeAll ∅ { rand := () }).2.1 ↔
      sampleApi.NoneThrows ∅ ["refused", "fine"] { rand := () }) ∧
    (Complete ["fine"] (sampleApi.executeAllOf "second" ∅ { rand := () }).2.1 ↔
      sampleApi.NoneThrows ∅ ["fine"] { rand := () }) :=
  sampleApi.executeAll_complete_iff ∅ { rand := () } rfl (show List.lookup "second" _ = _ from rfl)

/-- The exception of the first case takes the verdict of the second one, which has none, and
the writer stays open. -/
theorem executeAll_incomplete :
    (sampleApi.executeAll ∅ { rand := () }).2.1.lines = [.executing "refused"] ∧
    (sampleApi.executeAll ∅ { rand := () }).2.1.closed = false ∧
    ((sampleApi.executeCase ∅ "fine" { rand := () }).1.toOption.map Prod.snd) = some true ∧
    ¬ Complete ["refused", "fine"] (sampleApi.executeAll ∅ { rand := () }).2.1 := by
  have hclosed : (sampleApi.executeAll ∅ { rand := () }).2.1.closed = false := by decide +kernel
  refine ⟨by decide +kernel, hclosed, by decide +kernel, ?_⟩
  rintro ⟨hopen, -⟩
  rw [hclosed] at hopen
  cases hopen

end RequestCaseApiController

end Powerful
