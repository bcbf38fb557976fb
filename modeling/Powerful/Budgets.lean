import Mathlib
import Powerful.Records

/-! # Budgets of runs

`c` measures something in the state, such as the calls to other processes.  An execution calls
out at most once, so its budget is that of the one call (`doExecuteSingle_within`,
`executeSingle_within`).  A run has the budgets of its executions, which may depend on the
number of the iteration (`budget`), on one thread and on a pool under every schedule
(`execute_within`).  An invariant `I` of the state goes along; with the measure zero it is all
there is. -/

namespace Powerful

open Resumption Prog

variable {ρ : Type}

namespace Service
variable {svc : Service ρ} {i : Instruction} {t : ThreadId}
variable {I : St ρ → Prop} {c : St ρ → ℕ}

/-! ### One execution -/

section execution
variable {m : ℕ} (hquiet : ∀ s s', svc.Quiet t s s' → I s → I s' ∧ c s' ≤ c s)
include hquiet

/-- One execution calls out at most once, and only if there is a next node. -/
theorem doExecuteSingle_within
    (hinvoke : ∀ s, I s → s.nodes[1]?.isSome → ∀ protocol invoker,
      svc.invokers protocol = some invoker → Within I c (invoke i t invoker) m) :
    Within I c (svc.doExecuteSingle i t) m := by
  have hzero : ∀ {α : Type} {p : Run ρ α}, p.Steps (svc.Quiet t) → Within I c p 0 :=
    fun hp => Within.zero (Steps.mono hquiet hp) 0
  have hcall : Within I c (svc.call i t) m := by
    refine Within.readBind fun s hs => ?_
    cases hlast : s.nodes[1]?.isNone with
    | true => trivial
    | false =>
        have hnext : s.nodes[1]?.isSome := by
          rw [← Option.not_isNone, hlast]
          rfl
        refine Within.after (hzero chooseProtocol_quiet) fun _ => ?_
        refine Within.atomicBind fun s₁ hs₁ => ?_
        split
        · rename_i invoker hinvoker
          refine ⟨hs₁, le_refl _, fun invoker' heq => ?_⟩
          obtain rfl := Except.ok.inj heq
          obtain ⟨protocol, -, htable⟩ := Option.bind_eq_some_iff.mp hinvoker
          refine Within.after (hzero renderCall_quiet) fun _ => ?_
          refine Within.readBind fun s₂ _ => ?_
          cases isEmpty s₂.nextCall with
          | true => trivial
          | false =>
              exact Within.before (hinvoke s hs hnext protocol invoker htable) fun response =>
                Within.after (hzero (setResult_quiet response)) fun _ => Within.pure _ 0
        · refine ⟨hs₁, le_refl _, fun invoker' heq => ?_⟩
          cases heq
  refine Within.after (hzero (propagateHeaders_quiet i)) fun _ => ?_
  refine Within.after (hzero renderHeaders_quiet) fun _ => ?_
  refine Within.readBind fun s _ => ?_
  cases s.nodes.head? with
  | none => trivial
  | some node =>
      refine Within.after (hzero (invokeTestMethod_quiet node)) fun _ => ?_
      refine Within.after (hzero (delay_quiet node)) fun _ => ?_
      refine Within.after (hzero (errorByPercent_quiet node)) fun _ => ?_
      exact Within.after (hzero (code_quiet node)) fun _ => hcall

omit hquiet in
/-- The budget of an execution: that of what it works through. -/
theorem executeProcessed_within {n : ℕ}
    (hplain : i.rr.map AList.entries = some [] → Within I c (svc.doExecuteSingle i t) m)
    (hcopy : i.rr.map AList.entries ≠ some [] → ∀ s i', I s →
      svc.processLoop { i with trace := some s.nodes } n = .ok i' →
        Within I c (.withCopy St.nodes (fun ns s => s.withNodes ns) i'.nodes
          (svc.doExecuteSingle i' t)) m) :
    Within I c (svc.executeProcessed i t n) m := by
  refine Within.atomicBind fun s hs => ⟨hs, le_refl _, fun i' hi' => ?_⟩
  by_cases hrr : i.rr.map AList.entries = some []
  · rw [if_pos hrr]
    exact hplain hrr
  · rw [if_neg hrr]
    exact hcopy hrr s i' hs hi'

/-- The budget of an execution: that of its record, and that of what it works through. -/
theorem executeSingle_within {handleException : Bool} {qps : ℚ} {n d : ℕ}
    (hcount : ∀ s, I s → I (s.perform n) ∧ c (s.perform n) ≤ c s + d)
    (hprocessed : Within I c (svc.executeProcessed i t n) m) :
    Within I c (svc.executeSingle i t handleException qps n) (d + m) := by
  have hzero : ∀ {α : Type} {p : Run ρ α}, p.Steps (svc.Quiet t) → Within I c p 0 :=
    fun hp => Within.zero (Steps.mono hquiet hp) 0
  have hbegin : Within I c (.modify fun s : St ρ => s.perform n : Run ρ Unit) d :=
    fun s hs => ⟨(hcount s hs).1, d, 0, le_refl d, (hcount s hs).2, Within.pure () 0⟩
  refine Within.bind hbegin fun _ => ?_
  refine Within.after (hzero (awaitTurn_quiet qps)) fun _ => ?_
  refine Within.after (hzero (Steps.ofExcept _)) fun template => ?_
  refine Within.after (hzero sleep_quiet) fun _ => ?_
  refine Within.after (hzero (draw_quiet _)) fun requestStarts => ?_
  refine Within.before (Within.attempt hprocessed) fun outcome => ?_
  refine Within.after (hzero (conclude_quiet _ _ _ outcome)) fun own => ?_
  refine Within.after (hzero (Steps.read fun s => .stay s)) fun delayMillis => ?_
  exact Within.after (hzero (renderText_quiet template)) fun _ => Within.pure _ 0

end execution

/-! ### A run -/

theorem renderResponseHeaderList_finishes :
    ∀ ks, (svc.renderResponseHeaderList t ks).Steps (svc.Finishes t)
  | [] => Steps.pure ()
  | k :: ks => by
      refine Steps.bind (Steps.atomic fun s => ?_) fun _ => renderResponseHeaderList_finishes ks
      split
      · exact .quiet (.stay s)
      · rename_i node rest hnodes
        split
        · exact .quiet (.stay s)
        · split
          · exact .quiet (.drawn s _)
          · exact .responseHeaderRendered s node rest _ _ hnodes

theorem renderResponseHeaders_finishes : (svc.renderResponseHeaders t).Steps (svc.Finishes t) := by
  refine Steps.bind (Steps.read fun s => .quiet (.stay s)) fun names => ?_
  cases names with
  | none => exact Steps.throw _
  | some names => exact renderResponseHeaderList_finishes names

/-- The executions of a run. -/
def executionCount (i : Instruction) : ℕ := if i.times ≤ 1 then 1 else totalTimes i

/-- The iterations that the tasks of a run go through; each task counts from zero. -/
def rounds (i : Instruction) : ℕ :=
  if i.times ≤ 1 then 1
  else if 1 < threadCount i then share (totalTimes i) (threadCount i) 0
  else totalTimes i

/-- The budgets of the repeated executions, if iteration `n` has the budget `b n`. -/
def budgetForTimes (i : Instruction) (b : ℕ → ℕ) : ℕ :=
  if 1 < threadCount i then
    ∑ k ∈ Finset.range (threadCount i),
      ∑ n ∈ Finset.range (share (totalTimes i) (threadCount i) k), b n
  else ∑ n ∈ Finset.range (totalTimes i), b n

/-- The budgets of the executions of a run. -/
def budget (i : Instruction) (b : ℕ → ℕ) : ℕ := if i.times ≤ 1 then b 0 else budgetForTimes i b

theorem budgetForTimes_const (i : Instruction) (m : ℕ) :
    budgetForTimes i (fun _ => m) = totalTimes i * m := by
  unfold budgetForTimes
  split
  · rename_i hT
    simp only [Finset.sum_const, Finset.card_range, smul_eq_mul]
    rw [← Finset.sum_mul, sum_share _ (Nat.lt_of_succ_lt hT)]
  · rw [Finset.sum_const, Finset.card_range, smul_eq_mul]

theorem budget_const (i : Instruction) (m : ℕ) :
    budget i (fun _ => m) = executionCount i * m := by
  unfold budget executionCount
  split
  · rw [Nat.one_mul]
  · exact budgetForTimes_const i m

theorem worker_within {b : ℕ → ℕ} (htask : ∀ k, Within I c (svc.task i t k) (b k)) :
    ∀ ks : List ℕ, Within I c (svc.worker i t ks) (ks.map b).sum
  | [] => trivial
  | k :: ks => by
      rw [List.map_cons, List.sum_cons]
      refine Within.bind (Within.attempt (htask k)) fun outcome => ?_
      exact Within.before (worker_within htask ks) fun os => Within.pure _ 0

/-- The pool, whatever its schedule. -/
theorem runPool_within {b : ℕ → ℕ} (htask : ∀ t k, Within I c (svc.task i t k) (b k)) {s : St ρ}
    (hs : I s) : I (svc.runPool i s).2 ∧
      c (svc.runPool i s).2 ≤ c s + ∑ k ∈ Finset.range (threadCount i), b k := by
  rw [← sum_workers svc i]
  refine interleave_within hs (fun w _ => worker_within (htask w) _) ?_ _
  intro w hw
  rw [tasksOf_eq_nil hw]
  rfl

section run
variable {b : ℕ → ℕ} (hquiet : ∀ t s s', svc.Quiet t s s' → I s → I s' ∧ c s' ≤ c s)
  (hsingle : ∀ t handleException qps n, n < rounds i →
    Within I c (svc.executeSingle i t handleException qps n) (b n))

theorem share_le (N T k : ℕ) : share N T k ≤ share N T 0 := by
  unfold share
  split
  · rename_i hk
    rw [if_pos (by omega)]
  · omega

include hsingle in
theorem task_within (hi : ¬ i.times ≤ 1) (hT : 1 < threadCount i) (k : ℕ) :
    Within I c (svc.task i t k)
      (∑ n ∈ Finset.range (share (totalTimes i) (threadCount i) k), b n) := by
  have h : Within I c (svc.task i t k)
      (∑ n ∈ Finset.range (share (totalTimes i) (threadCount i) k), b (0 + n)) := by
    refine Within.range _ 0 fun n _ hn => hsingle t _ _ n ?_
    have hle := share_le (totalTimes i) (threadCount i) k
    rw [rounds, if_neg hi, if_pos hT]
    omega
  simpa only [Nat.zero_add] using h

include hquiet hsingle

theorem executeForTimes_within (hi : ¬ i.times ≤ 1) {s : St ρ} (hs : I s) :
    I (svc.executeForTimes i t s).2 ∧
      c (svc.executeForTimes i t s).2 ≤ c s + budgetForTimes i b := by
  obtain ⟨hs₁, hc₁⟩ := hquiet t s ((draw svc.host.nanoTime).run s).2 (.drawn s _) hs
  unfold executeForTimes
  by_cases hT : 1 < threadCount i
  · obtain ⟨hend, hcost⟩ := runPool_within (fun t k => task_within hsingle hi hT k) hs₁
    have hresult : I (svc.runPool i ((draw svc.host.nanoTime).run s).2).2 ∧
        c (svc.runPool i ((draw svc.host.nanoTime).run s).2).2 ≤ c s + budgetForTimes i b := by
      rw [budgetForTimes, if_pos hT]
      exact ⟨hend, by omega⟩
    simp only [if_pos hT]
    cases hpool : svc.runPool i ((draw svc.host.nanoTime).run s).2 with
    | mk futures s₂ =>
        rw [hpool] at hresult
        cases futures with
        | none => exact hresult
        | some futures =>
            cases i.collectBy with
            | none => exact hresult
            | some collectBy =>
                simp only
                split
                · exact hresult
                · exact hresult
  · have hskip : I ((draw svc.host.nanoTime).run s).2 ∧
        c ((draw svc.host.nanoTime).run s).2 ≤ c s + budgetForTimes i b := ⟨hs₁, by omega⟩
    simp only [if_neg hT]
    cases i.collectBy with
    | none => exact hskip
    | some collectBy =>
        simp only
        split
        · have hloop : Within I c (svc.collectSequential i t collectBy)
              (∑ n ∈ Finset.range (totalTimes i), b (0 + n)) := by
            refine Within.before (Within.range _ 0 fun n _ hn => ?_) fun rs => ?_
            · refine Within.before (hsingle t _ _ n ?_) fun r => ?_
              · rw [rounds, if_neg hi, if_neg hT]
                omega
              · exact Within.zero (Steps.ofExcept _) 0
            · exact Within.zero (Steps.ofExcept _) 0
          simp only [Nat.zero_add] at hloop
          obtain ⟨hend, hcost⟩ := hloop.run hs₁
          rw [budgetForTimes, if_neg hT]
          exact ⟨hend, by omega⟩
        · exact hskip

/-- **Budget of a run**: that of its executions. -/
theorem execute_within (hfinishes : ∀ t s s', svc.Finishes t s s' → I s → I s' ∧ c s' ≤ c s)
    {s : St ρ} (hs : I s) :
    I (svc.execute i t s).2 ∧ c (svc.execute i t s).2 ≤ c s + budget i b := by
  have hzero : ∀ {α : Type} {p : Run ρ α}, p.Steps (svc.Finishes t) → Within I c p 0 :=
    fun hp => Within.zero (Steps.mono (hfinishes t) hp) 0
  unfold execute budget
  by_cases hi : i.times ≤ 1
  · rw [if_pos hi, if_pos hi]
    have honce : Within I c (svc.executeOnce i t) (b 0) := by
      refine Within.before (hsingle t _ _ 0 ?_) fun r => ?_
      · rw [rounds, if_pos hi]
        exact Nat.one_pos
      · exact Within.after (hzero (Steps.modify fun s => .quiet (.slotWritten s _))) fun _ =>
          Within.pure _ 0
    exact honce.run hs
  · rw [if_neg hi, if_neg hi]
    obtain ⟨hend, hcost⟩ := executeForTimes_within (t := t) hquiet hsingle hi hs
    cases hrun : svc.executeForTimes i t s with
    | mk out s₁ =>
        rw [hrun] at hend hcost
        cases out with
        | error e => exact ⟨hend, hcost⟩
        | ok result =>
            have hfinish : Within I c (svc.finish t result) 0 :=
              Within.after (hzero (Steps.modify fun s => .quiet (.slotWritten s _))) fun _ =>
                Within.after (hzero renderResponseHeaders_finishes) fun _ => Within.pure _ 0
            obtain ⟨hend₂, hcost₂⟩ := hfinish.run hend
            exact ⟨hend₂, hcost₂.trans hcost⟩

end run

end Service

end Powerful
