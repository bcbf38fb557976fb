import Mathlib
import Powerful.ExecutionSteps
import Powerful.Workers

/-! # No record is lost

A run of `times` executions performs exactly that many and reports exactly their records,
whatever its executions return or throw, on one thread and on a pool under every schedule
(`execute_records`).  A handled execution always leaves a record if its template renders
(`executeSingle_record`), and it counts as one (`executeSingle_counts`); tasks and workers put
these results together (`worker_record`, `worker_counts`), the shares of the tasks add up
(`sum_share`), and the reports account for what they get (`report_reports`). -/

namespace Powerful

open Resumption Prog

variable {ρ : Type}

namespace Service

/-! ### Executions that always leave a record -/

/-- The request headers are there in both states, or in neither. -/
def KeepsMap (s s' : St ρ) : Prop :=
  s'.ctx.requestHeaders.isSome = s.ctx.requestHeaders.isSome

instance : IsPreorder (St ρ) KeepsMap where
  refl _ := rfl
  trans _ _ _ h h' := Eq.trans h' h

/-- The text renders in every context with, or in every context without, request headers. -/
def Renders (h : Host ρ) (headers : Bool) (source : String) : Prop :=
  ∀ v r, v.requestHeaders.isSome = headers → ∃ text r', render h v source r = (.ok text, r')

variable {svc : Service ρ}
variable {i : Instruction} {t : ThreadId}

theorem Quiet.keepsMap {s s' : St ρ} (h : svc.Quiet t s s') : KeepsMap s s' := by
  cases h with
  | headerRendered =>
      unfold KeepsMap RenderingContext.putRequestHeader
      simp only [St.withCtx, Option.isSome_map]
  | _ => rfl

theorem Does.keepsMap {s s' : St ρ} (h : svc.Does i t s s') : KeepsMap s s' := by
  cases h with
  | quiet h => exact h.keepsMap
  | invoked => rfl

theorem draw_total {α : Type} (f : ρ → α × ρ) : (draw f : Run ρ α).Total :=
  Total.atomic fun _ => ⟨_, rfl⟩

theorem awaitTurn_total (qps : ℚ) : (svc.awaitTurn qps).Total := by
  unfold awaitTurn
  split
  · trivial
  · exact Total.bind (draw_total _) fun _ => True.intro

theorem storeDelay_total (n : ℕ) : (svc.storeDelay t n).Total :=
  Total.bind (draw_total _) fun _ => Total.bind (Total.modify _) fun _ => True.intro

/-- An exception that is handled goes no further. -/
theorem conclude_total (template : Option String) (n : ℕ)
    (outcome : Except Exc (Option PowerfulResponse)) :
    (svc.conclude t true template n outcome).Total := by
  cases outcome with
  | ok response => exact Total.bind (storeDelay_total n) fun _ => True.intro
  | error e =>
      exact Total.bind (Total.modify _) fun _ => Total.bind (storeDelay_total n) fun _ => True.intro

/-- What the record of an execution is rendered to. -/
def record (h : Host ρ) (i : Instruction) (v : View) (r : ρ) : Except Exc (Option String) :=
  (template i).bind fun source => (renderNullable h v source r).1

/-- In every context with, or in every context without, request headers the record has `P`. -/
def Recording (h : Host ρ) (headers : Bool) (i : Instruction)
    (P : Except Exc (Option String) → Prop) : Prop :=
  ∀ v r, v.requestHeaders.isSome = headers → P (record h i v r)

/-- A record that is a text, or that is null. -/
def Leaves (text : Bool) (out : Except Exc (Option String)) : Prop :=
  ∃ record, out = .ok record ∧ record.isSome = text

theorem Renders.recording {source : String} {headers : Bool}
    (hsource : template i = .ok (some source)) (hrender : Renders svc.host headers source) :
    Recording svc.host headers i (Leaves true) := by
  intro v r hv
  obtain ⟨text, r', htext⟩ := hrender v r hv
  refine ⟨some text, ?_, rfl⟩
  unfold record
  rw [hsource]
  show (renderNullable svc.host v (some source) r).1 = .ok (some text)
  rw [renderNullable_ok htext]

/-- Whatever fails, a handled execution leaves what its template renders to. -/
theorem executeBody_record {headers : Bool} {P : Except Exc (Option String) → Prop}
    (hrecord : Recording svc.host headers i P) (qps : ℚ) (n : ℕ) {s : St ρ}
    (hs : s.ctx.requestHeaders.isSome = headers) :
    Holds KeepsMap KeepsMap (fun r u => KeepsMap s u ∧ P (r.map Result.renderResult))
      (svc.executeBody i t true qps n) s := by
  have hprocessed : (svc.executeProcessed i t n).Steps KeepsMap :=
    executeProcessed_steps (fun _ _ _ _ h => h.keepsMap) (fun _ _ _ _ h => h) fun _ => rfl
  have carry : ∀ {α : Type} {p : Run ρ α}, p.Steps (svc.Quiet t) → p.Steps KeepsMap :=
    fun hp => Steps.mono (fun _ _ h => h.keepsMap) hp
  unfold executeBody
  refine Holds.afterTotal (carry (awaitTurn_quiet qps)) (awaitTurn_total qps)
    fun _ s₁ h₁ => ?_
  cases hsource : template i with
  | error e =>
      have hthrown : P (.error e) := by
        have hP := hrecord (s.ctx.view t) s.world.rand hs
        unfold record at hP
        rwa [hsource] at hP
      exact fun u hu => ⟨trans_of _ h₁ hu, hthrown⟩
  | ok source =>
      rw [ofExcept_bind]
      refine Holds.afterTotal (carry sleep_quiet) (Total.modify _) fun _ s₂ h₂ => ?_
      refine Holds.afterTotal (carry (draw_quiet _)) (draw_total _)
        fun requestStarts s₃ h₃ => ?_
      refine Holds.afterTotal (Steps.attempt hprocessed) (Total.attempt _) fun outcome s₄ h₄ => ?_
      refine Holds.afterTotal (carry (conclude_quiet true _ _ outcome))
        (conclude_total _ _ outcome) fun own s₅ h₅ => ?_
      refine Holds.afterTotal (Steps.read fun _ => rfl) (fun _ => True.intro)
        fun delayMillis s₆ h₆ => ?_
      have hall : KeepsMap s s₆ :=
        trans_of _ (trans_of _ (trans_of _ (trans_of _ (trans_of _ h₁ h₂) h₃) h₄) h₅) h₆
      refine Holds.bind (Holds.atomic fun s₇ h₇ => ⟨rfl, fun s₈ h₈ => ?_⟩)
      have hmap : (s₇.ctx.view t).requestHeaders.isSome = headers :=
        (trans_of KeepsMap hall h₇).trans hs
      have hP := hrecord (s₇.ctx.view t) s₇.world.rand hmap
      unfold record at hP
      rw [hsource] at hP
      have hrendered : P (renderNullable svc.host (s₇.ctx.view t) source s₇.world.rand).1 := hP
      cases hrun : renderNullable svc.host (s₇.ctx.view t) source s₇.world.rand with
      | mk out r' =>
          rw [hrun] at h₈ hrendered
          cases out with
          | error e => exact ⟨trans_of _ hall (trans_of _ h₇ h₈), hrendered⟩
          | ok text =>
              exact fun u hu => ⟨trans_of _ hall (trans_of _ h₇ (trans_of _ h₈ hu)), hrendered⟩

theorem executeSingle_record {headers : Bool} {P : Except Exc (Option String) → Prop}
    (hrecord : Recording svc.host headers i P) (qps : ℚ) (n : ℕ) {s : St ρ}
    (hs : s.ctx.requestHeaders.isSome = headers) :
    Holds KeepsMap KeepsMap (fun r u => KeepsMap s u ∧ P (r.map Result.renderResult))
      (svc.executeSingle i t true qps n) s := by
  refine Holds.afterTotal (Steps.modify fun _ => rfl) (Total.modify _) fun _ s₁ h₁ => ?_
  refine Holds.mono ?_ (executeBody_record hrecord qps n (h₁.trans hs))
  rintro r u ⟨hu, hr⟩
  exact ⟨trans_of _ h₁ hu, hr⟩

/-- The result of an execution that leaves a record. -/
theorem Leaves.result {text : Bool} {r : Except Exc Result}
    (h : Leaves text (r.map Result.renderResult)) :
    ∃ res, r = .ok res ∧ res.renderResult.isSome = text := by
  obtain ⟨record, hr, hrecord⟩ := h
  cases r with
  | error e => cases hr
  | ok res =>
      obtain rfl := Except.ok.inj hr
      exact ⟨res, rfl, hrecord⟩

/-- A handled execution counts as one. -/
theorem executeSingle_counts {headers text : Bool}
    (hrecord : Recording svc.host headers i (Leaves text)) (qps : ℚ) (n : ℕ) {s : St ρ}
    (hs : s.ctx.requestHeaders.isSome = headers) :
    (svc.executeSingle i t true qps n).Counts (fun s => s.ctx.requestHeaders.isSome = headers)
      St.executions 1 := by
  have hbody : (svc.executeBody i t true qps n).Counts
      (fun s => s.ctx.requestHeaders.isSome = headers) St.executions 0 := by
    refine Counts.zero ?_ ?_ ?_ hs (Holds.and (executeBody_record hrecord qps n hs)
      (executeBody_executions true qps n s))
    · exact fun s t hs ht => ⟨ht.trans hs.symm, trivial⟩
    · exact fun s t h => ⟨h.2, fun hs => h.1.trans hs⟩
    · rintro e u - ⟨⟨-, hr⟩, -⟩
      obtain ⟨res, hres, -⟩ := hr.result
      cases hres
  have hbegin : (Prog.modify fun s : St ρ => s.perform n : Run ρ Unit).Counts
      (fun s => s.ctx.requestHeaders.isSome = headers) St.executions 1 :=
    Counts.modify (fun _ hs => hs) fun _ => rfl
  exact Counts.bind hbegin fun _ => hbody

/-! ### Tasks -/

/-- What a task is to leave: a record for each execution of its share. -/
def Recorded (i : Instruction) (text : Bool) (o : ℕ × Except Exc (List Result)) : Prop :=
  ∃ rs, o.2 = .ok rs ∧ rs.length = share (totalTimes i) (threadCount i) o.1 ∧
    ∀ r ∈ rs, r.renderResult.isSome = text

/-- The shares add up. -/
theorem sum_share (N : ℕ) {T : ℕ} (hT : 0 < T) : ∑ k ∈ Finset.range T, share N T k = N := by
  have hfilter : (Finset.range T).filter (fun k => k < N % T) = Finset.range (N % T) := by
    have hlt := Nat.mod_lt N hT
    ext k
    simp only [Finset.mem_filter, Finset.mem_range]
    omega
  unfold share
  rw [Finset.sum_add_distrib, Finset.sum_const, Finset.card_range, Finset.sum_boole, hfilter,
    Finset.card_range, smul_eq_mul]
  exact Nat.div_add_mod N T

/-- The executions of a worker are those of its tasks. -/
theorem worker_counts {I : St ρ → Prop} {c : St ρ → ℕ} {b : ℕ → ℕ}
    (htask : ∀ k, (svc.task i t k).attempt.Counts I c (b k)) :
    ∀ ks : List ℕ, (svc.worker i t ks).Counts I c (ks.map b).sum
  | [] => rfl
  | k :: ks => by
      have hpure : ∀ os, (Prog.pure os : Run ρ (List (ℕ × Except Exc (List Result)))).Counts I c 0 :=
        fun _ => rfl
      rw [List.map_cons, List.sum_cons]
      refine Counts.bind (htask k) fun outcome => ?_
      have h := Counts.bind (worker_counts htask ks) fun os => hpure ((k, outcome) :: os)
      rwa [Nat.add_zero] at h

section tasks
variable {headers text : Bool} (hrecord : Recording svc.host headers i (Leaves text))
include hrecord

theorem task_record (k : ℕ) {s : St ρ} (hs : s.ctx.requestHeaders.isSome = headers) :
    Holds KeepsMap KeepsMap
      (fun r u => KeepsMap s u ∧ ∃ rs, r = .ok rs ∧
        rs.length = share (totalTimes i) (threadCount i) k ∧ ∀ r ∈ rs, r.renderResult.isSome = text)
      (svc.task i t k) s := by
  refine Holds.range (fun j u hu => Holds.mono ?_ (executeSingle_record hrecord _ j (hu.trans hs))) _ 0 s rfl
  exact fun r v hr => ⟨hr.1, hr.2.result⟩

theorem task_counts (k : ℕ) {s : St ρ} (hs : s.ctx.requestHeaders.isSome = headers) :
    (svc.task i t k).Counts (fun s => s.ctx.requestHeaders.isSome = headers) St.executions
      (share (totalTimes i) (threadCount i) k) := by
  have h := Counts.range (fun j => executeSingle_counts (t := t) hrecord
    (i.qps.toInt / (threadCount i : ℚ)) j hs) (share (totalTimes i) (threadCount i) k) 0
  rw [Nat.mul_one] at h
  exact h

theorem worker_record : ∀ (ks : List ℕ) {s : St ρ}, s.ctx.requestHeaders.isSome = headers →
    Holds KeepsMap KeepsMap
      (fun r u => KeepsMap s u ∧ ∃ os, r = .ok os ∧ ∀ o ∈ os, Recorded i text o)
      (svc.worker i t ks) s
  | [], s, _ => fun u hu => ⟨hu, [], rfl, by simp⟩
  | k :: ks, s, hs => by
      refine Holds.bind (Holds.attempt (Holds.mono ?_ (task_record hrecord k hs)))
      rintro r u ⟨hu, rs, rfl, hlen, hrs⟩
      refine Holds.bind (Holds.mono ?_ (worker_record ks (hu.trans hs)))
      rintro r v ⟨hv, os, rfl, hos⟩ w hw
      refine ⟨trans_of _ hu (trans_of _ hv hw), _, rfl, ?_⟩
      intro o ho
      rcases List.mem_cons.mp ho with rfl | ho
      · exact ⟨rs, rfl, hlen, hrs⟩
      · exact hos o ho

end tasks

/-! ### The pool -/

theorem mapM_option {α β : Type} {f : α → Option β} : ∀ {as : List α} {bs : List β},
    as.mapM f = some bs → List.Forall₂ (fun a b => f a = some b) as bs
  | [], bs, h => by
      obtain rfl : [] = bs := by simpa using h
      exact .nil
  | a :: as, bs, h => by
      simp only [List.mapM_cons, Option.bind_eq_bind, Option.bind_eq_some_iff, Option.pure_def,
        Option.some.injEq] at h
      obtain ⟨b, hb, cs, hcs, rfl⟩ := h
      exact .cons hb (mapM_option hcs)

theorem exists_of_mem {α β : Type} {R : α → β → Prop} {as : List α} {bs : List β}
    (h : List.Forall₂ R as bs) {a : α} (ha : a ∈ as) : ∃ b, R a b := by
  induction h with
  | nil => cases ha
  | @cons c b _ _ hcb _ ih =>
      rcases List.mem_cons.mp ha with rfl | ha
      · exact ⟨b, hcb⟩
      · exact ih ha

/-- The results of tasks that left a record for each execution. -/
theorem futureResults_recorded {text : Bool} {ks : List ℕ}
    {futures : List (Except Exc (List Result))}
    (h : List.Forall₂ (fun k o => Recorded i text (k, o)) ks futures) :
    ∃ rs, futureResults futures = .ok rs ∧
      rs.length = (ks.map (share (totalTimes i) (threadCount i))).sum ∧
      ∀ r ∈ rs, r.renderResult.isSome = text := by
  induction h with
  | nil => exact ⟨[], rfl, rfl, by simp⟩
  | @cons k o ks os hko _ ih =>
      obtain ⟨rs, ho, hlen, hrs⟩ := hko
      obtain ⟨rest, hrest, hlen', hrest'⟩ := ih
      simp only at ho
      subst ho
      refine ⟨rs ++ rest, ?_, ?_, ?_⟩
      · rw [futureResults, futureGet, hrest]
        rfl
      · rw [List.length_append, hlen, hlen', List.map_cons, List.sum_cons]
      · intro r hr
        rcases List.mem_append.mp hr with hr | hr
        · exact hrs r hr
        · exact hrest' r hr

/-- Every task is one of some thread of the pool. -/
theorem sum_workers (svc : Service ρ) (i : Instruction) (f : ℕ → ℕ) :
    ∑ w ∈ (Finset.range (threadCount i)).image svc.assign, ((svc.tasksOf i w).map f).sum =
      ∑ k ∈ Finset.range (threadCount i), f k := by
  have hthread : ∀ w, ((svc.tasksOf i w).map f).sum =
      ∑ k ∈ (Finset.range (threadCount i)).filter (fun k => svc.assign k = w), f k := by
    intro w
    have hnodup : (svc.tasksOf i w).Nodup := List.nodup_range.filter _
    rw [← List.sum_toFinset _ hnodup, tasksOf, List.toFinset_filter, List.toFinset_range]
    simp only [decide_eq_true_eq]
  simp only [hthread]
  exact Finset.sum_fiberwise_of_maps_to (fun k hk => Finset.mem_image_of_mem svc.assign hk) f

/-- A thread that no task is assigned to has nothing to do. -/
theorem tasksOf_eq_nil {w : ThreadId} (hw : w ∉ (Finset.range (threadCount i)).image svc.assign) :
    svc.tasksOf i w = [] := by
  unfold tasksOf
  rw [List.filter_eq_nil_iff]
  intro k hk hkw
  rw [decide_eq_true_eq] at hkw
  exact hw (Finset.mem_image.mpr ⟨k, Finset.mem_range.mpr (List.mem_range.mp hk), hkw⟩)

/-- A pool that runs its tasks to their end makes their executions. -/
theorem runPool_counts {I : St ρ → Prop} {c : St ρ → ℕ} {b : ℕ → ℕ} {s : St ρ} (hs : I s)
    (htask : ∀ t k, (svc.task i t k).attempt.Counts I c (b k))
    {futures : List (Except Exc (List Result))} (hpool : (svc.runPool i s).1 = some futures) :
    c (svc.runPool i s).2 = c s + ∑ k ∈ Finset.range (threadCount i), b k := by
  rw [← sum_workers svc i]
  refine interleave_counts hs (fun w _ => worker_counts (htask w) (svc.tasksOf i w)) ?_ ?_
  · intro w hw
    unfold workers
    rw [tasksOf_eq_nil hw]
    rfl
  · intro w hw
    obtain ⟨k, hk, rfl⟩ := Finset.mem_image.mp hw
    obtain ⟨o, ho⟩ := exists_of_mem (mapM_option hpool) (List.mem_range.mpr (Finset.mem_range.mp hk))
    obtain ⟨os, hos, -⟩ := svc.mem_of_future ho
    rw [hos]
    rfl

/-- It leaves as many records as the run has executions. -/
theorem runPool_records {text : Bool} {s : St ρ}
    (hrecord : Recording svc.host s.ctx.requestHeaders.isSome i (Leaves text))
    (hT : 0 < threadCount i) {futures : List (Except Exc (List Result))}
    (hpool : (svc.runPool i s).1 = some futures) :
    (∃ rs, futureResults futures = .ok rs ∧ rs.length = totalTimes i ∧
      ∀ r ∈ rs, r.renderResult.isSome = text) ∧
    (svc.runPool i s).2.executions = s.executions + totalTimes i := by
  constructor
  · have hrecorded : List.Forall₂ (fun k o => Recorded i text (k, o)) (List.range (threadCount i))
        futures := by
      refine (mapM_option hpool).imp fun k o ho => ?_
      obtain ⟨os, hos, hmem⟩ := svc.mem_of_future ho
      obtain ⟨-, os', heq, hall⟩ := interleave_outcome (R := fun _ => KeepsMap) (G := fun _ => KeepsMap)
        (fun _ _ _ _ _ h => h)
        (fun w => worker_record (t := w) hrecord (svc.tasksOf i w) rfl) hos
      obtain rfl := Except.ok.inj heq
      exact hall (k, o) hmem
    obtain ⟨rs, hrs, hlen, hall⟩ := futureResults_recorded hrecorded
    refine ⟨rs, hrs, ?_, hall⟩
    rw [hlen, ← List.sum_toFinset _ List.nodup_range, List.toFinset_range, sum_share _ hT]
  · have hcounts := runPool_counts (c := St.executions)
      (I := fun u => u.ctx.requestHeaders.isSome = s.ctx.requestHeaders.isSome) rfl
      (fun t k => Counts.attempt (task_counts (t := t) hrecord k rfl)) hpool
    rw [sum_share _ hT] at hcounts
    exact hcounts

/-! ### Reports -/

/-- What the report is to say about the records. -/
def Reports (collectBy : String) (records : List String) (result : Json) : Prop :=
  (collectBy = "list" → result = .arr (records.map .str)) ∧
  (collectBy = "string" → result = .str (String.intercalate "\n" records ++ "\n")) ∧
  (collectBy = "stat_count" → ∃ counts : List (String × ℕ),
    result = .obj (counts.map fun c => (c.1, .int c.2)) ∧ (counts.map Prod.fst).Nodup ∧
    (∀ k, k ∈ counts.map Prod.fst ↔ k ∈ records) ∧ (∀ c ∈ counts, c.2 = records.count c.1) ∧
    (counts.map Prod.snd).sum = records.length)

/-- The texts of records that are there. -/
def texts (rs : List Result) : List String := rs.filterMap Result.renderResult

theorem length_texts {rs : List Result} (h : ∀ r ∈ rs, r.renderResult.isSome) :
    (texts rs).length = rs.length := by
  unfold texts
  rw [List.length_filterMap_eq_countP, List.countP_eq_length]
  exact h

theorem map_texts {α : Type} (f : Option String → α) {rs : List Result}
    (h : ∀ r ∈ rs, r.renderResult.isSome) :
    rs.map (fun r => f r.renderResult) = (texts rs).map (fun s => f (some s)) := by
  induction rs with
  | nil => rfl
  | cons r rs ih =>
      obtain ⟨s, hs⟩ := Option.isSome_iff_exists.mp (h r List.mem_cons_self)
      have ih' := ih fun r hr => h r (List.mem_cons_of_mem _ hr)
      simp only [texts] at ih' ⊢
      rw [List.map_cons, List.filterMap_cons, hs, ih', List.map_cons]

theorem accept_text (collectBy : String) {r : Result} (h : r.renderResult.isSome) :
    accept collectBy r = .ok r := by
  obtain ⟨text, htext⟩ := Option.isSome_iff_exists.mp h
  unfold accept
  rw [if_neg]
  rintro ⟨-, -, hnone⟩
  rw [htext] at hnone
  cases hnone

theorem acceptAll_texts {collectBy : String} {rs : List Result}
    (h : ∀ r ∈ rs, r.renderResult.isSome) : acceptAll collectBy rs = .ok rs := by
  induction rs with
  | nil => rfl
  | cons r rs ih =>
      rw [acceptAll, accept_text collectBy (h r List.mem_cons_self),
        ih fun r hr => h r (List.mem_cons_of_mem _ hr)]
      rfl

theorem statFields_count (rs : List Result) (ks : List String) :
    statFields "count" rs ks = .ok (ks.map fun k => (k, .int ((texts rs).count k : ℕ))) := by
  have hlength : ∀ k, (rs.filter (fun r => r.renderResult = some k)).length = (texts rs).count k := by
    intro k
    unfold texts
    induction rs with
    | nil => rfl
    | cons r rs ih =>
        cases hr : r.renderResult with
        | none => simp [hr, ih]
        | some s =>
            by_cases hk : s = k
            · simp [hr, hk, ih]
            · simp [hr, hk, ih]
  induction ks with
  | nil => rfl
  | cons k ks ih =>
      rw [statFields, ih, statValue, hlength k]
      rfl

/-- **Report**: it accounts for every record. -/
theorem report_reports {collectBy : String} {rs : List Result}
    (hmode : collectBy = "list" ∨ collectBy = "string" ∨ collectBy = "stat_count")
    (h : ∀ r ∈ rs, r.renderResult.isSome) :
    ∃ result, report collectBy rs = .ok result ∧ Reports collectBy (texts rs) result := by
  rcases hmode with rfl | rfl | rfl
  · refine ⟨.arr (rs.map (fun r => ofString r.renderResult)), rfl, fun _ => ?_, ?_, ?_⟩
    · rw [map_texts ofString h]
      rfl
    · intro hc
      exact absurd hc (by decide)
    · intro hc
      exact absurd hc (by decide)
  · refine ⟨.str (String.intercalate "\n" (rs.map (fun r => orNull r.renderResult)) ++ "\n"), rfl, ?_,
      fun _ => ?_, ?_⟩
    · intro hc
      exact absurd hc (by decide)
    · rw [map_texts orNull h]
      show _ = Json.str (String.intercalate "\n" (texts rs) ++ "\n")
      simp only [orNull, Option.getD_some, List.map_id']
    · intro hc
      exact absurd hc (by decide)
  · have hperm : (treeKeys (texts rs)).Perm (texts rs).dedup := List.mergeSort_perm _ _
    refine ⟨.obj ((treeKeys (texts rs)).map fun k => (k, .int ((texts rs).count k : ℕ))), ?_, ?_, ?_,
      fun _ => ⟨(treeKeys (texts rs)).map fun k => (k, (texts rs).count k), ?_, ?_, ?_, ?_, ?_⟩⟩
    · show (statFields (substring "stat_count" 5) rs (treeKeys (texts rs))).map Json.obj = _
      rw [show substring "stat_count" 5 = "count" by decide, statFields_count]
      rfl
    · intro hc
      exact absurd hc (by decide)
    · intro hc
      exact absurd hc (by decide)
    · rw [List.map_map]
      rfl
    · rw [List.map_map]
      show ((treeKeys (texts rs)).map id).Nodup
      rw [List.map_id, hperm.nodup_iff]
      exact List.nodup_dedup _
    · intro k
      rw [List.map_map]
      show k ∈ (treeKeys (texts rs)).map id ↔ _
      rw [List.map_id, hperm.mem_iff, List.mem_dedup]
    · intro c hc
      obtain ⟨k, -, rfl⟩ := List.mem_map.mp hc
      rfl
    · rw [List.map_map]
      show ((treeKeys (texts rs)).map fun k => (texts rs).count k).sum = _
      rw [(hperm.map _).sum_eq]
      exact List.sum_map_count_dedup_eq_length _

/-! ### The run -/

/-- The results of the executions of a repeated run, in the order in which they are collected. -/
def results (svc : Service ρ) (i : Instruction) (t : ThreadId) (s : St ρ) : Except Exc (List Result) :=
  let s := ((draw svc.host.nanoTime).run s).2
  if 1 < threadCount i then
    match (svc.runPool i s).1 with
    | none => .error .outOfFuel
    | some futures => futureResults futures
  else ((Prog.range (svc.executeSingle i t true i.qps.toInt) 0 (totalTimes i)).run s).1

theorem accept_ok {collectBy : String} {r r' : Result} (h : accept collectBy r = .ok r') : r' = r := by
  unfold accept at h
  split at h
  · cases h
  · exact (Except.ok.inj h).symm

/-- A collector that takes the results one by one leaves them as they are. -/
theorem run_range_accept {collectBy : String} {f : ℕ → Run ρ Result} :
    ∀ (n j : ℕ) {s s' : St ρ} {rs : List Result},
      (Prog.range (fun j => do
        let r ← f j
        .ofExcept (accept collectBy r)) j n).run s = (.ok rs, s') →
      (Prog.range f j n).run s = (.ok rs, s') ∧ ∀ r ∈ rs, accept collectBy r = .ok r
  | 0, j, s, s', rs, h => by
      obtain rfl := Except.ok.inj (Prod.mk.inj h).1
      exact ⟨h, by simp⟩
  | n + 1, j, s, s', rs, h => by
      obtain ⟨r, s₁, hround, h⟩ := run_bind_inv h
      obtain ⟨rest, s₂, hrest, h⟩ := run_bind_inv h
      obtain ⟨hrs, rfl⟩ := Prod.mk.inj h
      obtain rfl := Except.ok.inj hrs
      obtain ⟨r', s₃, hr', hround⟩ := run_bind_inv hround
      rw [run_ofExcept] at hround
      obtain ⟨haccept, rfl⟩ := Prod.mk.inj hround
      obtain rfl := accept_ok haccept
      obtain ⟨hrest, hall⟩ := run_range_accept n (j + 1) hrest
      constructor
      · rw [Prog.range, run_bind_ok hr', run_bind_ok hrest]
        rfl
      · intro r hr
        rcases List.mem_cons.mp hr with rfl | hr
        · exact haccept
        · exact hall r hr

/-- The executions on one thread, if the collector takes their records. -/
theorem run_collect {headers text : Bool} {collectBy : String}
    (hrecord : Recording svc.host headers i (Leaves text))
    (haccept : ∀ r : Result, r.renderResult.isSome = text → accept collectBy r = .ok r) :
    ∀ (n j : ℕ) {s : St ρ}, s.ctx.requestHeaders.isSome = headers →
      ∃ rs s', (Prog.range (fun j => do
          let r ← svc.executeSingle i t true i.qps.toInt j
          .ofExcept (accept collectBy r)) j n).run s = (.ok rs, s') ∧
        rs.length = n ∧ (∀ r ∈ rs, r.renderResult.isSome = text) ∧ s'.executions = s.executions + n
  | 0, j, s, _ => ⟨[], s, rfl, rfl, by simp, rfl⟩
  | n + 1, j, s, hs => by
      obtain ⟨hmap, hr⟩ := (executeSingle_record (t := t) hrecord i.qps.toInt j hs).run
      obtain ⟨r, hr, hrec⟩ := hr.result
      have hcount := (executeSingle_counts (t := t) hrecord i.qps.toInt j hs).run hs
      obtain ⟨s₁, hs₁⟩ : ∃ s₁, s₁ = ((svc.executeSingle i t true i.qps.toInt j).run s).2 := ⟨_, rfl⟩
      rw [← hs₁] at hmap hcount
      have hfirst : (svc.executeSingle i t true i.qps.toInt j).run s = (.ok r, s₁) :=
        Prod.ext hr hs₁.symm
      obtain ⟨rs, s', hrun, hlen, hall, hexec⟩ := run_collect hrecord haccept n (j + 1)
        (hmap.trans hs)
      refine ⟨r :: rs, s', ?_, by rw [List.length_cons, hlen], ?_, by omega⟩
      · rw [Prog.range, run_bind_ok (a := r), run_bind_ok hrun]
        · rfl
        · rw [run_bind_ok hfirst, run_ofExcept, haccept r hrec]
      · intro r' hr'
        rcases List.mem_cons.mp hr' with rfl | hr'
        · exact hrec
        · exact hall r' hr'

/-- Rendering response headers leaves the context as it is and executes nothing. -/
theorem renderResponseHeaders_keeps (svc : Service ρ) (t : ThreadId) :
    (svc.renderResponseHeaders t).Steps fun s s' => s'.ctx = s.ctx ∧ s'.executions = s.executions := by
  have hheader : ∀ k, (svc.renderResponseHeader t k).Steps
      fun s s' => s'.ctx = s.ctx ∧ s'.executions = s.executions := by
    intro k
    refine Steps.atomic fun s => ?_
    split
    · exact ⟨rfl, rfl⟩
    · split
      · exact ⟨rfl, rfl⟩
      · split
        · exact ⟨rfl, rfl⟩
        · exact ⟨rfl, rfl⟩
  have hlist : ∀ ks, (svc.renderResponseHeaderList t ks).Steps
      fun s s' => s'.ctx = s.ctx ∧ s'.executions = s.executions := by
    intro ks
    induction ks with
    | nil => exact Steps.pure ()
    | cons k ks ih => exact Steps.bind (hheader k) fun _ => ih
  refine Steps.bind (Steps.read fun _ => ⟨rfl, rfl⟩) fun names => ?_
  cases names with
  | none => exact Steps.throw _
  | some names => exact hlist names

instance : IsPreorder (St ρ) fun s s' => s'.ctx = s.ctx ∧ s'.executions = s.executions where
  refl _ := ⟨rfl, rfl⟩
  trans _ _ _ h h' := ⟨h'.1.trans h.1, h'.2.trans h.2⟩

/-- The report is what the answer carries. -/
theorem run_finish (svc : Service ρ) (t : ThreadId) (result : Json) (s : St ρ) :
    (((svc.finish t result).run s).2.ctx.getResult t).result = result ∧
      ((svc.finish t result).run s).2.executions = s.executions ∧
      ∀ j, ((svc.finish t result).run s).1 = .ok j → j = result := by
  have hstore : (storeResult t result).run s =
      (.ok (), s.withCtx (s.ctx.setResult t { s.ctx.getResult t with result := result })) := rfl
  unfold finish
  rw [run_bind_ok hstore, run_bind]
  obtain ⟨hctx, hexec⟩ := (renderResponseHeaders_keeps svc t).run
    (s.withCtx (s.ctx.setResult t { s.ctx.getResult t with result := result }))
  cases hrun : (svc.renderResponseHeaders t).run
      (s.withCtx (s.ctx.setResult t { s.ctx.getResult t with result := result })) with
  | mk out s' =>
      rw [hrun] at hctx hexec
      simp only at hctx hexec
      have hresult : (s'.ctx.getResult t).result = result := by
        rw [hctx]
        simp [St.withCtx, RenderingContext.setResult, RenderingContext.getResult]
      cases out with
      | ok a =>
          refine ⟨hresult, hexec, fun j hj => ?_⟩
          exact (Except.ok.inj hj).symm
      | error e =>
          refine ⟨hresult, hexec, fun j hj => ?_⟩
          cases hj

/-- The pool runs its tasks to their end, in a run that needs it. -/
def PoolCompletes (svc : Service ρ) (i : Instruction) (s : St ρ) : Prop :=
  1 < threadCount i → ((svc.runPool i ((draw svc.host.nanoTime).run s).2).1).isSome

theorem executeForTimes_records {source collectBy : String} {s : St ρ}
    (hsource : template i = .ok (some source))
    (hrender : Renders svc.host s.ctx.requestHeaders.isSome source)
    (hpool : PoolCompletes svc i s) (hcollect : i.collectBy = some collectBy)
    (hmode : collectBy = "list" ∨ collectBy = "string" ∨ collectBy = "stat_count") :
    ∃ result s' rs, svc.executeForTimes i t s = (.ok result, s') ∧ svc.results i t s = .ok rs ∧
      rs.length = totalTimes i ∧ (∀ r ∈ rs, r.renderResult.isSome) ∧
      s'.executions = s.executions + totalTimes i ∧ Reports collectBy (texts rs) result := by
  obtain ⟨s₁, hs₁⟩ : ∃ s₁, s₁ = ((draw svc.host.nanoTime).run s).2 := ⟨_, rfl⟩
  have hctx : s₁.ctx = s.ctx := by rw [hs₁]; rfl
  have hexec : s₁.executions = s.executions := by rw [hs₁]; rfl
  have hknown : collects collectBy = true := by
    rcases hmode with rfl | rfl | rfl <;> decide
  have hrecord : Recording svc.host s₁.ctx.requestHeaders.isSome i (Leaves true) := by
    rw [hctx]
    exact hrender.recording hsource
  unfold PoolCompletes at hpool
  unfold executeForTimes results
  rw [← hs₁] at hpool ⊢
  by_cases hT : 1 < threadCount i
  · obtain ⟨futures, hfutures⟩ := Option.isSome_iff_exists.mp (hpool hT)
    obtain ⟨⟨rs, hrs, hlen, hall⟩, hcount⟩ :=
      runPool_records hrecord (Nat.lt_of_succ_lt hT) hfutures
    obtain ⟨result, hreport, hreports⟩ := report_reports hmode hall
    refine ⟨result, (svc.runPool i s₁).2, rs, ?_, ?_, hlen, hall, by omega, hreports⟩
    · have hpair : svc.runPool i s₁ = (some futures, (svc.runPool i s₁).2) := Prod.ext hfutures rfl
      simp only [if_pos hT]
      rw [hpair]
      simp only [hcollect, hknown, if_true, collectFutures, hrs]
      rw [show (Except.ok rs >>= fun rs => acceptAll collectBy rs >>= fun rs => report collectBy rs) =
        (acceptAll collectBy rs >>= fun rs => report collectBy rs) from rfl, acceptAll_texts hall,
        show (Except.ok rs >>= fun rs => report collectBy rs) = report collectBy rs from rfl, hreport]
    · simp only [if_pos hT, hfutures, hrs]
  · obtain ⟨rs, s', hrun, hlen, hall, hcount⟩ :=
      run_collect (t := t) hrecord (fun _ hr => accept_text collectBy hr) (totalTimes i) 0 rfl
    obtain ⟨result, hreport, hreports⟩ := report_reports hmode hall
    refine ⟨result, s', rs, ?_, ?_, hlen, hall, by omega, hreports⟩
    · simp only [if_neg hT, hcollect, hknown, if_true]
      unfold collectSequential
      rw [run_bind_ok hrun, hreport]
      rfl
    · simp only [if_neg hT, (run_range_accept _ _ hrun).1]

theorem not_le_one {n : Int32} (h : 2 ≤ n) : ¬ n ≤ 1 := by
  rw [Int32.le_iff_toInt_le] at h ⊢
  have htwo : (2 : Int32).toInt = 2 := by decide
  have hone : (1 : Int32).toInt = 1 := by decide
  omega

/-- **No record is lost or duplicated**: whatever fails, and however the threads take turns, a
run of `times` executions performs exactly that many, each has a result with a record, and the report
accounts for exactly these records. -/
theorem execute_records {source collectBy : String} {s : St ρ} (hN : 2 ≤ i.times)
    (hsource : template i = .ok (some source))
    (hrender : Renders svc.host s.ctx.requestHeaders.isSome source)
    (hpool : PoolCompletes svc i s) (hcollect : i.collectBy = some collectBy)
    (hmode : collectBy = "list" ∨ collectBy = "string" ∨ collectBy = "stat_count") :
    (svc.execute i t s).2.executions = s.executions + totalTimes i ∧
      ∃ rs, svc.results i t s = .ok rs ∧ rs.length = totalTimes i ∧ (∀ r ∈ rs, r.renderResult.isSome) ∧
        Reports collectBy (texts rs) ((svc.execute i t s).2.ctx.getResult t).result ∧
        ∀ result, (svc.execute i t s).1 = .ok result → Reports collectBy (texts rs) result := by
  obtain ⟨result, s', rs, hrun, hresults, hlen, hall, hexec, hreports⟩ :=
    executeForTimes_records (t := t) hsource hrender hpool hcollect hmode
  have htimes : ¬ i.times ≤ 1 := not_le_one hN
  obtain ⟨hresult, hcount, hreturn⟩ := run_finish svc t result s'
  have hexecute : svc.execute i t s = (svc.finish t result).run s' := by
    unfold execute
    rw [if_neg htimes, hrun]
  refine ⟨?_, rs, hresults, hlen, hall, ?_, ?_⟩
  · rw [hexecute, hcount, hexec]
  · rw [hexecute, hresult]
    exact hreports
  · intro j hj
    rw [hexecute] at hj
    rw [hreturn j hj]
    exact hreports

/-- A service without invokers, whose pool runs two tasks on two threads in turns. -/
def sampleService : Service Unit where
  host := .bare
  invokers _ := none
  schedule := (List.replicate 40 [0, 1]).flatten

/-- Three executions in two tasks. -/
def sampleInstruction : Instruction where
  trace := some [{}]
  times := 3
  threads := 2
  collectBy := some "stat_count"
  traceNodeTmpl := some "ok"

def sampleState : St Unit where
  nodes := sampleInstruction.nodes
  ctx := .new 7
  world := { rand := () }
  request := sampleInstruction

theorem execute_records_sample :
    (sampleService.execute sampleInstruction 7 sampleState).2.executions = 0 + 3 ∧
      ∃ rs, sampleService.results sampleInstruction 7 sampleState = .ok rs ∧ rs.length = 3 ∧
        (∀ r ∈ rs, r.renderResult.isSome) ∧
        Reports "stat_count" (texts rs)
          ((sampleService.execute sampleInstruction 7 sampleState).2.ctx.getResult 7).result ∧
        ∀ result, (sampleService.execute sampleInstruction 7 sampleState).1 = .ok result →
          Reports "stat_count" (texts rs) result := by
  have hrender : Renders Host.bare true "ok" := fun v r _ => ⟨"ok", r, rfl⟩
  have hpool : PoolCompletes sampleService sampleInstruction sampleState := by
    intro _
    decide +kernel
  exact execute_records (i := sampleInstruction) (s := sampleState) (by decide) rfl hrender hpool rfl
    (Or.inr (Or.inr rfl))

end Service

end Powerful
