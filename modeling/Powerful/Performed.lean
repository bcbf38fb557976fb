import Mathlib
import Powerful.Budgets

/-! # The executions that a run performs

With one thread the executions of a repeated run are made while its records are collected, so
the run makes none for a `collectBy` that collects nothing; with more threads they are made by
the tasks, whatever `collectBy` says.  An execution whose record does not render ends the
thread that makes it, and a grouping collector ends at a null record.

`performs_iff` says for every `collectBy` when a run makes exactly `times` executions. -/

namespace Powerful

open Resumption Prog

variable {ρ : Type}

namespace Service
variable {svc : Service ρ} {i : Instruction} {t : ThreadId} {s : St ρ}

/-! ### Records that render -/

/-- The record of an execution renders in every context with, or without, request headers. -/
def Rendering (h : Host ρ) (headers : Bool) (i : Instruction) : Prop :=
  Recording h headers i returns

theorem Rendering.leaves {h : Host ρ} {v : View} (hrender : Rendering h v.requestHeaders.isSome i)
    (r : ρ) : ∃ source, template i = .ok source ∧
      Recording h v.requestHeaders.isSome i (Leaves source.isSome) := by
  cases hsource : template i with
  | error e =>
      have hreturns := hrender v r rfl
      unfold record at hreturns
      rw [hsource] at hreturns
      exact (not_returns_error _ hreturns).elim
  | ok source =>
      refine ⟨source, rfl, fun v' r' hv' => ?_⟩
      obtain ⟨text, htext⟩ := hrender v' r' hv'
      refine ⟨text, htext, ?_⟩
      unfold record at htext
      rw [hsource] at htext
      have hrun : (renderNullable h v' source r').1 = .ok text := htext
      unfold renderNullable at hrun
      cases source with
      | none =>
          obtain rfl := Except.ok.inj hrun
          rfl
      | some source =>
          simp only at hrun
          split at hrun
          · obtain rfl := Except.ok.inj hrun
            rfl
          · cases hrun

/-- A record that fails to render in one context fails in all of them. -/
theorem not_rendering {h : Host ρ} (hformats : h.JudgesFormats) {headers : Bool}
    (hrender : ¬ Rendering h headers i) : Recording h headers i (fun out => ¬ returns out) := by
  intro v r hv hreturns
  refine hrender fun v' r' hv' => ?_
  unfold record at hreturns ⊢
  cases hsource : template i with
  | error e =>
      rw [hsource] at hreturns
      exact hreturns
  | ok source =>
      rw [hsource] at hreturns
      exact renderNullable_uniform hformats (hv.trans hv'.symm) source r r' hreturns

/-! ### Executions of a task -/

/-- The context keeps its request headers, or keeps having none. -/
def HasMap (headers : Bool) (s : St ρ) : Prop := s.ctx.requestHeaders.isSome = headers

theorem executeBody_keeps (headers : Bool) (qps : ℚ) (n : ℕ) : (svc.executeBody i t true qps n).Steps
    fun s s' => HasMap headers s → HasMap headers s' ∧ s'.executions = s.executions := by
  refine executeBody_steps ?_ ?_ ?_
  · exact fun _ _ s s' h hs => ⟨h.keepsMap.trans hs, h.executions⟩
  · exact fun s s' h hs => ⟨h.keepsMap.trans hs, h.executions⟩
  · exact fun _ _ s s' h hs => h hs

section tasks
variable {headers : Bool}

theorem executeSingle_one (qps : ℚ) (n : ℕ) :
    Within (HasMap headers) St.executions (svc.executeSingle i t true qps n) 1 := by
  have hbegin : Within (HasMap headers) St.executions
      (Prog.modify fun s : St ρ => s.perform n : Run ρ Unit) 1 :=
    fun s hs => ⟨hs, 1, 0, le_refl 1, le_refl _, Within.pure () 0⟩
  refine Within.before hbegin fun _ => Within.zero (Steps.mono ?_ (executeBody_keeps headers qps n)) 0
  exact fun s s' h hs => ⟨(h hs).1, le_of_eq (h hs).2⟩

/-- Nothing follows an execution that does not return. -/
theorem executeSingle_stop {α : Type} (hrecord : Recording svc.host headers i (fun out => ¬ returns out))
    {qps : ℚ} {n : ℕ} (f : Result → Run ρ α) (hs : HasMap headers s) :
    Within (HasMap headers) St.executions (svc.executeSingle i t true qps n >>= f) 1 := by
  refine Within.stop (fun u u' hu hu' => hu'.trans hu.symm) ?_ hs (executeSingle_record hrecord qps n hs)
    (executeSingle_one qps n)
  rintro r u - ⟨-, hr⟩
  exact hr ⟨r.renderResult, rfl⟩

/-- A task whose executions do not return makes the first of its share only. -/
theorem task_stop (hrecord : Recording svc.host headers i (fun out => ¬ returns out))
    (hs : HasMap headers s) (k : ℕ) : Within (HasMap headers) St.executions (svc.task i t k)
      (min (share (totalTimes i) (threadCount i) k) 1) := by
  unfold task
  cases share (totalTimes i) (threadCount i) k with
  | zero => exact Within.pure [] _
  | succ n =>
      rw [Nat.min_eq_right (Nat.le_add_left 1 n)]
      exact executeSingle_stop hrecord _ hs

/-- A task of one execution at most makes its share, whatever comes of it. -/
theorem task_caught {k : ℕ} (hshare : share (totalTimes i) (threadCount i) k ≤ 1) :
    (svc.task i t k).attempt.Counts (HasMap headers) St.executions
      (share (totalTimes i) (threadCount i) k) := by
  unfold task
  cases hn : share (totalTimes i) (threadCount i) k with
  | zero => exact rfl
  | succ n =>
      obtain rfl : n = 0 := by omega
      refine fun u hu => ⟨hu, 1, 0, rfl, rfl, Counts.caught ?_⟩
      exact Steps.bind (executeBody_keeps headers _ _) fun r => Steps.pure [r]

/-- A collector that takes no result of the executions ends behind the first one. -/
theorem collectSequential_stop {P : Except Exc (Option String) → Prop} {collectBy : String}
    (hrecord : Recording svc.host s.ctx.requestHeaders.isSome i P)
    (hrefuse : ∀ r : Result, P (.ok r.renderResult) → ¬ returns (accept collectBy r)) :
    ((svc.collectSequential i t collectBy).run s).2.executions ≤ s.executions + 1 := by
  have hloop : Within (HasMap s.ctx.requestHeaders.isSome) St.executions
      (svc.collectSequential i t collectBy) 1 := by
    unfold collectSequential
    refine Within.before ?_ fun rs => Within.zero (Steps.ofExcept _) 0
    cases totalTimes i with
    | zero => exact Within.pure [] _
    | succ n =>
        refine Within.stop (G := KeepsMap) (Q := fun r _ => ¬ returns r) (fun u u' hu hu' => hu'.trans hu.symm)
          (fun r u _ h => h ⟨r, rfl⟩) (s := s) rfl ?_ ?_
        · refine Holds.bind (Holds.mono ?_ (executeSingle_record hrecord _ _ rfl))
          rintro r u ⟨-, hr⟩
          cases r with
          | error e => exact not_returns_error e
          | ok r => exact Holds.ofExcept fun _ _ => hrefuse r hr
        · exact Within.before (executeSingle_one _ _) fun r => Within.zero (Steps.ofExcept _) 0
  exact (hloop.run rfl).2

end tasks

/-! ### Executions of a run -/

theorem share_le_one {N T : ℕ} (hle : N ≤ T) (k : ℕ) : share N T k ≤ 1 := by
  unfold share
  rcases Nat.lt_or_eq_of_le hle with hlt | rfl
  · rw [Nat.div_eq_of_lt hlt]
    split
    · omega
    · omega
  · rw [Nat.mod_self, if_neg (Nat.not_lt_zero k)]
    exact Nat.div_le_of_le_mul (by rw [Nat.mul_one])

/-- On a pool that ends: all executions, unless a task loses some behind its first one. -/
theorem runPool_performs (hformats : svc.host.JudgesFormats) (hT : 1 < threadCount i)
    (hpool : ((svc.runPool i s).1).isSome) :
    (svc.runPool i s).2.executions = s.executions + totalTimes i ↔
      Rendering svc.host s.ctx.requestHeaders.isSome i ∨ totalTimes i ≤ threadCount i := by
  obtain ⟨futures, hfutures⟩ := Option.isSome_iff_exists.mp hpool
  by_cases hrender : Rendering svc.host s.ctx.requestHeaders.isSome i
  · obtain ⟨source, -, hrecord⟩ := Rendering.leaves (v := s.ctx.view 0) hrender s.world.rand
    exact iff_of_true (runPool_records hrecord (Nat.lt_of_succ_lt hT) hfutures).2 (Or.inl hrender)
  · by_cases hle : totalTimes i ≤ threadCount i
    · have hcounts := runPool_counts (c := St.executions) (I := HasMap s.ctx.requestHeaders.isSome)
        rfl (fun t k => task_caught (t := t) (share_le_one hle k)) hfutures
      rw [sum_share _ (Nat.lt_of_succ_lt hT)] at hcounts
      exact iff_of_true hcounts (Or.inr hle)
    · refine iff_of_false ?_ (not_or.mpr ⟨hrender, hle⟩)
      have hstop := not_rendering hformats hrender
      have hbound := (runPool_within (c := St.executions)
        (I := HasMap s.ctx.requestHeaders.isSome) (fun t k => task_stop (t := t) hstop rfl k) rfl).2
      have hfew : ∑ k ∈ Finset.range (threadCount i),
          min (share (totalTimes i) (threadCount i) k) 1 ≤ threadCount i := by
        have hsum := Finset.sum_le_card_nsmul (Finset.range (threadCount i))
          (fun k => min (share (totalTimes i) (threadCount i) k) 1) 1 fun k _ => Nat.min_le_right _ 1
        rwa [Finset.card_range, smul_eq_mul, Nat.mul_one] at hsum
      omega

/-- Whether the collector takes every record of the instruction. -/
def Collected (collectBy : String) (i : Instruction) : Prop :=
  collectBy = "list" ∨ collectBy = "string" ∨
    (startsWith collectBy "stat_" ∧ template i ≠ .ok none)

theorem Collected.collects {collectBy : String} (h : Collected collectBy i) :
    collects collectBy = true := by
  unfold Powerful.collects
  rcases h with rfl | rfl | ⟨h, -⟩
  · rfl
  · rfl
  · rw [h, Bool.or_true]

/-- On one thread. -/
theorem collectSequential_performs (hformats : svc.host.JudgesFormats) {collectBy : String}
    (hN : 1 < totalTimes i) (hcollects : collects collectBy = true) :
    ((svc.collectSequential i t collectBy).run s).2.executions = s.executions + totalTimes i ↔
      Rendering svc.host s.ctx.requestHeaders.isSome i ∧ Collected collectBy i := by
  by_cases hrender : Rendering svc.host s.ctx.requestHeaders.isSome i
  · obtain ⟨source, hsource, hrecord⟩ := Rendering.leaves (v := s.ctx.view t) hrender s.world.rand
    by_cases hcollected : Collected collectBy i
    · refine iff_of_true ?_ ⟨hrender, hcollected⟩
      have haccept : ∀ r : Result, r.renderResult.isSome = source.isSome →
          accept collectBy r = .ok r := by
        intro r hr
        unfold accept
        rw [if_neg]
        rintro ⟨hlist, hstring, hnull⟩
        rcases hcollected with h | h | ⟨-, htext⟩
        · exact hlist h
        · exact hstring h
        · have hnone : source = none := by
            rw [hnull] at hr
            cases source with
            | none => rfl
            | some text => cases hr
          exact htext (by rw [hsource, hnone])
      obtain ⟨rs, s', hrun, -, -, hcount⟩ :=
        run_collect (t := t) hrecord haccept (totalTimes i) 0 rfl
      unfold collectSequential
      rw [run_bind_ok hrun, run_ofExcept]
      exact hcount
    · refine iff_of_false ?_ fun h => hcollected h.2
      have hgroups : collectBy ≠ "list" ∧ collectBy ≠ "string" ∧ source = none := by
        unfold Collected at hcollected
        unfold collects at hcollects
        simp only [not_or, not_and, not_not, Bool.or_eq_true, decide_eq_true_eq] at hcollected hcollects
        obtain ⟨hlist, hstring, hstat⟩ := hcollected
        have hprefix : startsWith collectBy "stat_" = true := by
          rcases hcollects with (h | h) | h
          · exact absurd h hlist
          · exact absurd h hstring
          · exact h
        exact ⟨hlist, hstring, Except.ok.inj (hsource.symm.trans (hstat hprefix))⟩
      obtain ⟨hlist, hstring, rfl⟩ := hgroups
      have hrefuse : ∀ r : Result, Leaves (none : Option String).isSome (.ok r.renderResult) →
          ¬ returns (accept collectBy r) := by
        rintro r ⟨text, htext, hnull⟩
        obtain rfl := Except.ok.inj htext
        unfold accept
        rw [if_pos ⟨hlist, hstring, by simpa using hnull⟩]
        exact not_returns_error _
      have hfew := collectSequential_stop (t := t) hrecord hrefuse
      omega
  · refine iff_of_false ?_ fun h => hrender h.1
    have hrefuse : ∀ r : Result, ¬ returns (.ok r.renderResult : Except Exc (Option String)) →
        ¬ returns (accept collectBy r) := fun r hr => absurd ⟨_, rfl⟩ hr
    have hfew := collectSequential_stop (t := t) (not_rendering hformats hrender) hrefuse
    omega

/-- The report and what follows it make no executions. -/
theorem execute_executions (hi : ¬ i.times ≤ 1) :
    (svc.execute i t s).2.executions = (svc.executeForTimes i t s).2.executions := by
  unfold execute
  rw [if_neg hi]
  cases hrun : svc.executeForTimes i t s with
  | mk out s' =>
      cases out with
      | error e => rfl
      | ok result => exact (run_finish svc t result s').2.1

/-- **Executions of a run**: which runs of an instruction make exactly as many as it says. -/
theorem performs_iff {collectBy : String} (hN : 2 ≤ i.times) (hcollect : i.collectBy = some collectBy)
    (hformats : svc.host.JudgesFormats) (hpool : PoolCompletes svc i s) :
    (svc.execute i t s).2.executions = s.executions + totalTimes i ↔
      if 1 < threadCount i then
        Rendering svc.host s.ctx.requestHeaders.isSome i ∨ totalTimes i ≤ threadCount i
      else Rendering svc.host s.ctx.requestHeaders.isSome i ∧ Collected collectBy i := by
  rw [execute_executions (not_le_one hN)]
  obtain ⟨s₁, hs₁⟩ : ∃ s₁, s₁ = ((draw svc.host.nanoTime).run s).2 := ⟨_, rfl⟩
  have hctx : s₁.ctx = s.ctx := by rw [hs₁]; rfl
  have hexec : s₁.executions = s.executions := by rw [hs₁]; rfl
  have htimes : 1 < totalTimes i := by
    rw [Int32.le_iff_toInt_le] at hN
    have htwo : (2 : Int32).toInt = 2 := by decide
    unfold totalTimes
    omega
  unfold PoolCompletes at hpool
  unfold executeForTimes
  rw [← hs₁] at hpool ⊢
  rw [← hctx, ← hexec]
  by_cases hT : 1 < threadCount i
  · simp only [if_pos hT, hcollect]
    rw [← runPool_performs hformats hT (hpool hT)]
    obtain ⟨futures, hfutures⟩ := Option.isSome_iff_exists.mp (hpool hT)
    have hpair : svc.runPool i s₁ = (some futures, (svc.runPool i s₁).2) := Prod.ext hfutures rfl
    rw [hpair]
    simp only
    split
    · exact Iff.rfl
    · exact Iff.rfl
  · simp only [if_neg hT, hcollect]
    split
    · rename_i hcollects
      exact collectSequential_performs hformats htimes hcollects
    · rename_i hcollects
      refine iff_of_false (by simp only; omega) fun h => hcollects h.2.collects

theorem performs_iff_sample :
    (sampleService.execute sampleInstruction 7 sampleState).2.executions = 0 + 3 ↔
      if 1 < 2 then Rendering Host.bare true sampleInstruction ∨ 3 ≤ 2
      else Rendering Host.bare true sampleInstruction ∧ Collected "stat_count" sampleInstruction :=
  performs_iff (i := sampleInstruction) (s := sampleState) (by decide) rfl (fun _ _ _ => rfl)
    (fun _ => by decide +kernel)

/-- Two executions on one thread, with the value of `collectBy` that the shipped configuration
mentions. -/
def statInstruction : Instruction where
  trace := some [{}]
  times := 2
  collectBy := some "stat"
  traceNodeTmpl := some "ok"

def statState : St Unit where
  nodes := statInstruction.nodes
  ctx := .new 7
  world := { rand := () }
  request := statInstruction

/-- None of them is made. -/
theorem performs_none :
    ¬ ∀ (ρ : Type) (svc : Service ρ) (i : Instruction) (t : ThreadId) (s : St ρ) (collectBy : String),
      2 ≤ i.times → 1 ≤ i.threads → i.collectBy = some collectBy → PoolCompletes svc i s →
        (svc.execute i t s).2.executions = s.executions + totalTimes i := by
  intro h
  have htwo := h Unit sampleService statInstruction 7 statState "stat" (by decide) (by decide) rfl
    fun hT => absurd hT (by decide)
  revert htwo
  decide +kernel

end Service

end Powerful
