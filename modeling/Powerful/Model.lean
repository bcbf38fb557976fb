import Mathlib
import Powerful.JsonTree

/-! # Instructions, trace nodes, responses and the rendering context

The data model of the service.  An `Instruction` carries a `trace` of nodes; the first node
is the one the receiver executes, the second names the target it calls next, and `getNext`
is the instruction handed on to that target.  A Java reference that may be null is an
`Option`, a `Map` is an association list with distinct keys, an `Object` is a `Json` tree.

A `RenderingContext` belongs to one execution request.  Its request data are shared by all
threads that work on the request; its last response, method result and delay live in a slot
of their own for every thread (`results`, a `ThreadLocal` in the source). -/

namespace Powerful

/-- A `Map<String, α>`. -/
abbrev StringMap (α : Type) := AList (fun _ : String => α)

/-- A `Map<String, String>`, whose values may be null. -/
abbrev Headers := StringMap (Option String)

namespace StringMap
variable {α β : Type}

/-- Put the entries of the second map into the first. -/
def putAll (m n : StringMap α) : StringMap α := n ∪ m

theorem lookup_putAll_of_mem {m n : StringMap α} {k : String} (h : k ∈ n) :
    (m.putAll n).lookup k = n.lookup k := AList.lookup_union_left h

theorem lookup_putAll_of_notMem {m n : StringMap α} {k : String} (h : k ∉ n) :
    (m.putAll n).lookup k = m.lookup k := AList.lookup_union_right h

section
variable {γ : Type} (key : γ → String) {put : StringMap α → γ → StringMap α}
  (hput : ∀ m a k, k ≠ key a → (put m a).lookup k = m.lookup k)
include hput

/-- Entries that are put one after the other leave other names alone. -/
theorem lookup_foldl_put_ne : ∀ (xs : List γ) (m : StringMap α) {k : String}, k ∉ xs.map key →
    (xs.foldl put m).lookup k = m.lookup k
  | [], _, _, _ => rfl
  | a :: xs, m, k, hk => by
      rw [List.map_cons, List.mem_cons, not_or] at hk
      rw [List.foldl_cons, lookup_foldl_put_ne xs (put m a) hk.2, hput m a k hk.1]

/-- Of entries with distinct names each one stays as it was put. -/
theorem lookup_foldl_put : ∀ (xs : List γ) (m : StringMap α), (xs.map key).Nodup → ∀ {a : γ}, a ∈ xs →
    ∀ {v : Option α}, (∀ m, (put m a).lookup (key a) = v) → (xs.foldl put m).lookup (key a) = v
  | b :: xs, m, hnodup, a, ha, v, hv => by
      rw [List.map_cons, List.nodup_cons] at hnodup
      rw [List.foldl_cons]
      rcases List.mem_cons.mp ha with rfl | ha
      · rw [lookup_foldl_put_ne key hput xs _ hnodup.1, hv]
      · exact lookup_foldl_put xs (put m b) hnodup.2 ha hv

end

end StringMap

/-! ### Trace nodes and instructions -/

/-- One node of a trace; `{}` is the node the default constructor makes. -/
structure PowerTraceNode where
  call : Option String := some ""
  by_ : Option String := some "http"
  method : Option String := some "POST"
  code : Int32 := 200
  headers : Option Headers := some ∅
  responseHeaders : Option Headers := some ∅
  queries : Option Headers := some ∅
  callTestMethod : Option Int32 := some 0
  delay : ℚ := 0
  errorByPercent : Option Int32 := some 0

/-- What a `RequestCase` has beyond an `Instruction`. -/
structure CaseInfo where
  name : Option String := none
  description : Option String := none
  expect : Json := .null

/-- An instruction; `caseInfo` is there when the object is a `RequestCase`.  The defaults of
`collectBy` and `traceNodeTmpl` come from the process (`Instruction.new`). -/
structure Instruction where
  trace : Option (List PowerTraceNode) := some []
  times : Int32 := 1
  threads : Int32 := 1
  qps : Int32 := 0
  propagateHeaders : Option String := some ""
  collectBy : Option String
  traceNodeTmpl : Option String
  log : Bool := true
  rr : Option (StringMap (Option (List Json))) := some ∅
  caseInfo : Option CaseInfo := none

namespace Instruction

/-- The trace, with null read as the empty trace. -/
def nodes (i : Instruction) : List PowerTraceNode := i.trace.getD []

def currentNode (i : Instruction) : Option PowerTraceNode := i.nodes.head?

/-- The instruction for the next hop: the trace without its first node, to be executed once. -/
def getNext (i : Instruction) : Option Instruction :=
  match i.nodes with
  | [] => none
  | _ :: nextTrace => some { i with trace := some nextTrace, times := 1, threads := 1, qps := 0 }

end Instruction

/-! ### Exceptions -/

/-- Java throwables as far as the code tells them apart.  `thrown` stands for what code
outside the repository throws.  `outOfFuel` is no exception of the program: it ends a call
below the depth to which a model of calls between processes follows them. -/
inductive Exc where
  | statusCode (code : ℤ) (name : String)
  | illegalArgument (msg : String)
  | illegalState (msg : String)
  | indexOutOfBounds (msg : String)
  | numberFormat (msg : String)
  | nullPointer
  | jsonPatch (msg : String)
  | jsonMapping (msg : String)
  | thrown (msg : Option String)
  | runtime (msg : Option String) (cause : Option Exc)
  | outOfFuel

namespace Exc

def getMessage : Exc → Option String
  | statusCode code name => some ("Custom status code: " ++ toString code ++ " " ++ name)
  | illegalArgument msg | illegalState msg | indexOutOfBounds msg | numberFormat msg
  | jsonPatch msg | jsonMapping msg => some msg
  | nullPointer | outOfFuel => none
  | thrown msg | runtime msg _ => msg

def getCause : Exc → Option Exc
  | runtime _ cause => cause
  | _ => none

end Exc

/-- The parts of a computation that returned. -/
theorem ok_of_bind {α β : Type} {x : Except Exc α} {f : α → Except Exc β} {b : β}
    (h : (x >>= f) = .ok b) : ∃ a, x = .ok a ∧ f a = .ok b := by
  cases x with
  | error e => cases h
  | ok a => exact ⟨a, rfl, h⟩

/-- String concatenation reads a null reference as `null`. -/
def orNull (s : Option String) : String := s.getD "null"

/-! ### Responses and the rendering context -/

structure PowerfulResponse where
  responseHeaders : Headers := ∅
  result : Json := .null
  status : Option String := none

/-- What one thread keeps of its last call (`RenderingContext.Result`). -/
structure Slot where
  response : PowerfulResponse := {}
  invokeResult : Option String := none
  delayMillis : ℚ := 0

abbrev ThreadId := ℕ

structure RenderingContext where
  requestHeaders : Option Headers := some ∅
  path : String := ""
  params : Headers := ∅
  method : String := ""
  results : ThreadId → Option Slot

namespace RenderingContext
variable (ctx : RenderingContext) (t : ThreadId)

/-- A new context, made by thread `t`, which also fills its own slot. -/
def new (t : ThreadId) : RenderingContext where
  results := Function.update (fun _ => none) t (some {})

/-- The slot of thread `t`, created on first use. -/
def getResults : Slot := (ctx.results t).getD {}

def setSlot (r : Slot) : RenderingContext :=
  { ctx with results := Function.update ctx.results t (some r) }

def getResult : PowerfulResponse := (ctx.getResults t).response

def setResult (r : PowerfulResponse) : RenderingContext :=
  ctx.setSlot t { ctx.getResults t with response := r }

def setInvokeResult (r : String) : RenderingContext :=
  ctx.setSlot t { ctx.getResults t with invokeResult := some r }

def setDelayMillis (d : ℚ) : RenderingContext :=
  ctx.setSlot t { ctx.getResults t with delayMillis := d }

/-- Put a header of the request under its old name. -/
def putRequestHeader (k : String) (v : Option String) : RenderingContext :=
  { ctx with requestHeaders := ctx.requestHeaders.map (AList.insert k v) }

@[simp] theorem getResults_setSlot (r : Slot) : (ctx.setSlot t r).getResults t = r := by
  simp [setSlot, getResults]

@[simp] theorem requestHeaders_setSlot (r : Slot) :
    (ctx.setSlot t r).requestHeaders = ctx.requestHeaders := rfl

@[simp] theorem path_setSlot (r : Slot) : (ctx.setSlot t r).path = ctx.path := rfl

@[simp] theorem params_setSlot (r : Slot) : (ctx.setSlot t r).params = ctx.params := rfl

@[simp] theorem getResults_putRequestHeader (k : String) (v : Option String) :
    (ctx.putRequestHeader k v).getResults t = ctx.getResults t := rfl

@[simp] theorem getResults_new : (new t).getResults t = {} := by simp [new, getResults]

end RenderingContext

/-- What rendering on one thread reads of a context. -/
structure View where
  requestHeaders : Option Headers
  path : String
  params : Headers
  slot : Slot

def RenderingContext.view (ctx : RenderingContext) (t : ThreadId) : View where
  requestHeaders := ctx.requestHeaders
  path := ctx.path
  params := ctx.params
  slot := ctx.getResults t

end Powerful
