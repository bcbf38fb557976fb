import Mathlib
import Powerful.Service

/-! # Many executions of one instruction

`execute` runs an instruction once, or `times` times on one thread, or `times` times spread
over `threads` tasks of a thread pool, and reports the records as `collectBy` says.  The pool
is part of the process: `assign` says on which of its threads a task runs, and `schedule` in
which order the threads take their steps.  A run whose schedule ends before its tasks have
ended gives no result.

With one thread the executions are made while the records are collected, so none is made for
a `collectBy` that collects nothing. -/

namespace Powerful

open Resumption

variable {ρ : Type}

/-! ### Reports -/

/-- The UTF-16 code units of a text, by which Java compares texts. -/
def utf16 (s : String) : List ℕ :=
  s.toList.flatMap fun c =>
    if c.toNat < 0x10000 then [c.toNat]
    else [0xD800 + (c.toNat - 0x10000) / 0x400, 0xDC00 + (c.toNat - 0x10000) % 0x400]

/-- The keys of a `TreeMap`, in its order. -/
def treeKeys (keys : List String) : List String :=
  keys.dedup.mergeSort (fun s t => utf16 s ≤ utf16 t)

/-- The index of the quantile among `n` sorted delays.  The rank is narrowed to an `int`. -/
def quantileIndex (n : ℕ) (quantile : ℤ) : ℤ :=
  min (max (Int32.ofInt ((n * quantile).tdiv 1000) - 1).toInt 0) (n - 1)

/-- The statistic of a group: its size, its mean delay, or a quantile of its delays. -/
def statValue (stat : String) (data : List Result) : Except Exc Json :=
  let delays := data.map Result.delayMillis
  if stat = "count" then .ok (.int data.length)
  else if stat = "avg" then .ok (.dbl (delays.sum / data.length))
  else match parseInt stat with
    | .error e => .error e
    | .ok quantile =>
        .ok (.dbl ((delays.mergeSort (· ≤ ·)).getD (quantileIndex data.length quantile).toNat 0))

def statFields (stat : String) (rs : List Result) : List String → Except Exc (List (String × Json))
  | [] => .ok []
  | k :: ks => do
      let v ← statValue stat (rs.filter (fun r => r.renderResult = some k))
      let fs ← statFields stat rs ks
      .ok ((k, v) :: fs)

/-- Whether `collectBy` is one of the known ones. -/
def collects (collectBy : String) : Bool :=
  collectBy = "list" || collectBy = "string" || startsWith collectBy "stat_"

/-- A grouping collector refuses a null key. -/
def accept (collectBy : String) (r : Result) : Except Exc Result :=
  if collectBy ≠ "list" ∧ collectBy ≠ "string" ∧ r.renderResult = none then .error .nullPointer
  else .ok r

/-- The report on all records. -/
def report (collectBy : String) (rs : List Result) : Except Exc Json :=
  if collectBy = "list" then .ok (.arr (rs.map (fun r => ofString r.renderResult)))
  else if collectBy = "string" then
    .ok (.str (String.intercalate "\n" (rs.map (fun r => orNull r.renderResult)) ++ "\n"))
  else (statFields (substring collectBy 5) rs
    (treeKeys (rs.filterMap Result.renderResult))).map Json.obj

/-- Collect the records one after the other. -/
def acceptAll (collectBy : String) : List Result → Except Exc (List Result)
  | [] => .ok []
  | r :: rs => do
      let r ← accept collectBy r
      let rs ← acceptAll collectBy rs
      .ok (r :: rs)

/-- `future.get()`, with its exceptions wrapped twice. -/
def futureGet (future : Except Exc (List Result)) : Except Exc (List Result) :=
  match future with
  | .ok rs => .ok rs
  | .error e => .error (.runtime (some "java.util.concurrent.ExecutionException")
      (some (.runtime e.getMessage (some e))))

/-- The results of the tasks, in the order of the tasks. -/
def futureResults : List (Except Exc (List Result)) → Except Exc (List Result)
  | [] => .ok []
  | future :: futures => do
      let rs ← futureGet future
      let rest ← futureResults futures
      .ok (rs ++ rest)

namespace Service
variable (svc : Service ρ)

/-! ### Tasks -/

/-- The number of executions of task `k` of `T`. -/
def share (N T k : ℕ) : ℕ := N / T + if k < N % T then 1 else 0

def totalTimes (i : Instruction) : ℕ := i.times.toInt.toNat

def threadCount (i : Instruction) : ℕ := i.threads.toInt.toNat

/-- Task `k` on thread `t`. -/
def task (i : Instruction) (t : ThreadId) (k : ℕ) : Run ρ (List Result) :=
  .range (svc.executeSingle i t true (i.qps.toInt / (threadCount i : ℚ))) 0
    (share (totalTimes i) (threadCount i) k)

/-- The tasks `ks` on thread `t`, one after the other, each with its outcome. -/
def worker (i : Instruction) (t : ThreadId) : List ℕ → Run ρ (List (ℕ × Except Exc (List Result)))
  | [] => pure []
  | k :: ks => do
      let outcome ← (svc.task i t k).attempt
      let outcomes ← worker i t ks
      pure ((k, outcome) :: outcomes)

/-- The tasks of thread `t`. -/
def tasksOf (i : Instruction) (t : ThreadId) : List ℕ :=
  (List.range (threadCount i)).filter (fun k => svc.assign k = t)

/-- The threads of the pool, each with its tasks. -/
def workers (i : Instruction) (t : ThreadId) : Run ρ (List (ℕ × Except Exc (List Result))) :=
  svc.worker i t (svc.tasksOf i t)

/-- The outcome of task `k` once its thread has ended. -/
def future (ps : ThreadId → Run ρ (List (ℕ × Except Exc (List Result)))) (k : ℕ) :
    Option (Except Exc (List Result)) :=
  match (ps (svc.assign k)).outcome? with
  | some (.ok outcomes) => outcomes.lookup k
  | _ => none

theorem mem_of_lookup {β : Type} {k : ℕ} {o : β} {os : List (ℕ × β)} (h : os.lookup k = some o) :
    (k, o) ∈ os := by
  obtain ⟨before, behind, rfl, -⟩ := List.lookup_eq_some_iff.mp h
  exact List.mem_append_right _ List.mem_cons_self

/-- A task whose outcome is there was run by its thread. -/
theorem mem_of_future {ps : ThreadId → Run ρ (List (ℕ × Except Exc (List Result)))} {k : ℕ}
    {o : Except Exc (List Result)} (h : svc.future ps k = some o) :
    ∃ os, (ps (svc.assign k)).outcome? = some (.ok os) ∧ (k, o) ∈ os := by
  unfold future at h
  split at h
  · rename_i os hos
    exact ⟨os, hos, mem_of_lookup h⟩
  · cases h

/-- Run the tasks of the instruction on the pool, and wait for all of them. -/
def runPool (i : Instruction) (s : St ρ) : Option (List (Except Exc (List Result))) × St ρ :=
  let final := interleave svc.schedule (svc.workers i) s
  ((List.range (threadCount i)).mapM (svc.future final.1), final.2)

/-! ### The request -/

/-- The executions on the thread of the request, collected as they are made. -/
def collectSequential (i : Instruction) (t : ThreadId) (collectBy : String) : Run ρ Json := do
  let rs ← .range (fun j => do
    let r ← svc.executeSingle i t true i.qps.toInt j
    .ofExcept (accept collectBy r)) 0 (totalTimes i)
  .ofExcept (report collectBy rs)

/-- The records of the tasks, collected. -/
def collectFutures (futures : List (Except Exc (List Result))) (collectBy : String) :
    Except Exc Json := do
  let rs ← futureResults futures
  let rs ← acceptAll collectBy rs
  report collectBy rs

/-- Everything up to the report. -/
def executeForTimes (i : Instruction) (t : ThreadId) (s : St ρ) : Except Exc Json × St ρ :=
  let s := ((draw svc.host.nanoTime).run s).2
  if 1 < threadCount i then
    match svc.runPool i s with
    | (none, s) => (.error .outOfFuel, s)
    | (some futures, s) => match i.collectBy with
      | none => (.error .nullPointer, s)
      | some collectBy =>
          if collects collectBy then (collectFutures futures collectBy, s) else (.ok .null, s)
  else match i.collectBy with
    | none => (.error .nullPointer, s)
    | some collectBy =>
        if collects collectBy then (svc.collectSequential i t collectBy).run s else (.ok .null, s)

/-- `context.getResult().result = result`. -/
def storeResult (t : ThreadId) (result : Json) : Run ρ Unit :=
  .modify fun s => s.withCtx (s.ctx.setResult t { s.ctx.getResult t with result := result })

/-- Render one response header of the first node in place. -/
def renderResponseHeader (t : ThreadId) (k : String) : Run ρ Unit :=
  .atomic fun s => match s.nodes with
    | [] => (.error .nullPointer, s)
    | node :: rest => match node.responseHeaders.bind (AList.lookup k) with
      | none => (.ok (), s)
      | some v => match renderNullable svc.host (s.ctx.view t) v s.world.rand with
        | (.error e, r) => (.error e, s.withRand r)
        | (.ok value, r) =>
            (.ok (), (s.withRand r).withNodes
              ({ node with responseHeaders := node.responseHeaders.map (AList.insert k value) } :: rest))

def renderResponseHeaderList (t : ThreadId) : List String → Run ρ Unit
  | [] => pure ()
  | k :: ks => do
      svc.renderResponseHeader t k
      renderResponseHeaderList t ks

def renderResponseHeaders (t : ThreadId) : Run ρ Unit := do
  let names ← .read fun s => s.nodes.head?.bind fun node => node.responseHeaders.map AList.keys
  match names with
  | none => .throw .nullPointer
  | some names => svc.renderResponseHeaderList t names

/-- What follows the report: it becomes the body of the answer, and the response headers are
rendered. -/
def finish (t : ThreadId) (result : Json) : Run ρ Json := do
  storeResult t result
  svc.renderResponseHeaders t
  pure result

/-- A single execution: its record becomes the body of the answer. -/
def executeOnce (i : Instruction) (t : ThreadId) : Run ρ Json := do
  let r ← svc.executeSingle i t false 0 0
  storeResult t (ofString r.renderResult)
  pure (ofString r.renderResult)

def execute (i : Instruction) (t : ThreadId) (s : St ρ) : Except Exc Json × St ρ :=
  if i.times ≤ 1 then (svc.executeOnce i t).run s
  else match svc.executeForTimes i t s with
    | (.error e, s) => (.error e, s)
    | (.ok result, s) => (svc.finish t result).run s

end Service

end Powerful
