import Mathlib
import Powerful.RoundRobin

/-! # Pacing

With `qps` an execution waits for its turn: `executed / qps * 1000` milliseconds behind the
start of the run, by the number that it has in its task and the share of the rate that the
task has.  The wait is a number of whole milliseconds, and one of less than five is not made.

The programs of module `Service` leave time out; here it is what remains of them.  A state says
how far every task is, and which executions have begun when; time may pass before any step, so
that the steps of a run cover every start delay of a worker and every duration of an execution
(`Step`).  An execution that has begun was due at most five milliseconds later
(`Paced.late`), and so `begun_le` bounds the executions that have begun at any time. -/

namespace Powerful.Pacing

open Service

/-! ### The wait -/

/-- The conversion of a `double` to a `long`. -/
def toLong (q : ℚ) : ℤ := q.num.tdiv q.den

/-- `waitTimeMillis`, with the clock in nanoseconds. -/
def waitTimeMillis (qps : ℚ) (startTime executed nanoTime : ℕ) : ℤ :=
  if qps = 0 then 0
  else toLong (executed / qps * 1000) - ((nanoTime : ℤ) - startTime).tdiv 1000000

/-- The rate of one task. -/
def taskQps (i : Instruction) : ℚ :=
  if 1 < threadCount i then i.qps.toInt / (threadCount i : ℚ) else i.qps.toInt

/-! ### Tasks in time -/

/-- What a task is at. -/
inductive Phase where
  | ready (executed : ℕ)
  | sleeping (executed wake : ℕ)
  | awake (executed : ℕ)
  | running (executed : ℕ)
  | failed

/-- An execution that has begun. -/
structure Begun where
  task : ℕ
  executed : ℕ
  time : ℕ

structure Timed where
  nanoTime : ℕ
  phases : ℕ → Phase
  begun : List Begun

namespace Timed

def enter (s : Timed) (k : ℕ) (phase : Phase) : Timed :=
  { s with phases := Function.update s.phases k phase }

end Timed

/-- A step of a run that has started at `start`.  `Thread.sleep` lasts at least as long as it is
asked to; an execution may end its task. -/
inductive Step (i : Instruction) (start : ℕ) : Timed → Timed → Prop
  | pass (s : Timed) (duration : ℕ) : Step i start s { s with nanoTime := s.nanoTime + duration }
  | go (s : Timed) (k n : ℕ) (hk : k < tasks i) (hphase : s.phases k = .ready n)
      (hn : n < share (totalTimes i) (tasks i) k)
      (hwait : waitTimeMillis (taskQps i) start n s.nanoTime < 5) : Step i start s (s.enter k (.awake n))
  | sleep (s : Timed) (k n : ℕ) (hk : k < tasks i) (hphase : s.phases k = .ready n)
      (hn : n < share (totalTimes i) (tasks i) k)
      (hwait : 5 ≤ waitTimeMillis (taskQps i) start n s.nanoTime) :
      Step i start s (s.enter k (.sleeping n
        (s.nanoTime + (waitTimeMillis (taskQps i) start n s.nanoTime).toNat * 1000000)))
  | wake (s : Timed) (k n wake : ℕ) (hphase : s.phases k = .sleeping n wake)
      (hwake : wake ≤ s.nanoTime) : Step i start s (s.enter k (.awake n))
  | begin (s : Timed) (k n : ℕ) (hphase : s.phases k = .awake n) :
      Step i start s { s.enter k (.running n) with begun := s.begun ++ [⟨k, n, s.nanoTime⟩] }
  | finish (s : Timed) (k n : ℕ) (hphase : s.phases k = .running n) :
      Step i start s (s.enter k (.ready (n + 1)))
  | fail (s : Timed) (k n : ℕ) (hphase : s.phases k = .running n) : Step i start s (s.enter k .failed)

/-- The state at the start. -/
def initial (start : ℕ) : Timed where
  nanoTime := start
  phases _ := .ready 0
  begun := []

def Reaches (i : Instruction) (start : ℕ) (s : Timed) : Prop :=
  Relation.ReflTransGen (Step i start) (initial start) s

/-! ### Turns -/

section turns
variable {i : Instruction} {start : ℕ}

theorem tasks_pos (i : Instruction) : 0 < tasks i := by
  unfold tasks
  split
  · omega
  · omega

theorem taskQps_eq (i : Instruction) : taskQps i = i.qps.toInt / (tasks i : ℚ) := by
  unfold taskQps tasks
  split
  · rfl
  · rw [Nat.cast_one, div_one]

theorem taskQps_pos (hQ : 1 ≤ i.qps) : 0 < taskQps i := by
  rw [Int32.le_iff_toInt_le] at hQ
  have hone : (1 : Int32).toInt = 1 := by decide
  have hqps : (0 : ℚ) < i.qps.toInt := by
    rw [hone] at hQ
    exact_mod_cast hQ
  have htasks : (0 : ℚ) < tasks i := by exact_mod_cast tasks_pos i
  rw [taskQps_eq]
  exact div_pos hqps htasks

/-- When the execution `n` of a task is due, in milliseconds behind the start. -/
def due (i : Instruction) (n : ℕ) : ℚ := n / taskQps i * 1000

/-- At this time the execution is due, or will be in less than five milliseconds. -/
def OnTime (i : Instruction) (start n time : ℕ) : Prop :=
  due i n - 5 < ((time : ℚ) - start) / 1000000

theorem OnTime.mono {n time time' : ℕ} (h : OnTime i start n time) (hle : time ≤ time') :
    OnTime i start n time' := by
  have hle' : (time : ℚ) ≤ time' := by exact_mod_cast hle
  unfold OnTime at h ⊢
  linarith

theorem toLong_of_nonneg {q : ℚ} (hq : 0 ≤ q) : toLong q = ⌊q⌋ := by
  unfold toLong
  rw [Int.tdiv_eq_ediv_of_nonneg (Rat.num_nonneg.mpr hq), Rat.floor_def']

theorem waitTimeMillis_eq (hQ : 1 ≤ i.qps) {n time : ℕ} (htime : start ≤ time) :
    waitTimeMillis (taskQps i) start n time = ⌊due i n⌋ - ⌊((time : ℚ) - start) / 1000000⌋ := by
  have hqps := taskQps_pos hQ
  have hdue : 0 ≤ due i n := by
    unfold due
    positivity
  have helapsed : ((time : ℤ) - start).tdiv 1000000 = ⌊((time : ℚ) - start) / 1000000⌋ := by
    have hnonneg : (0 : ℤ) ≤ (time : ℤ) - start := by omega
    rw [Int.tdiv_eq_ediv_of_nonneg hnonneg]
    have hfloor := Rat.floor_intCast_div_natCast ((time : ℤ) - start) 1000000
    push_cast at hfloor
    exact hfloor.symm
  unfold waitTimeMillis
  rw [if_neg hqps.ne', helapsed, show (n : ℚ) / taskQps i * 1000 = due i n from rfl,
    toLong_of_nonneg hdue]

/-- No sleep: the execution is due in less than five milliseconds. -/
theorem onTime_of_go (hQ : 1 ≤ i.qps) {n time : ℕ} (htime : start ≤ time)
    (hwait : waitTimeMillis (taskQps i) start n time < 5) : OnTime i start n time := by
  rw [waitTimeMillis_eq hQ htime] at hwait
  have hdue := Int.lt_floor_add_one (due i n)
  have helapsed := Int.floor_le (((time : ℚ) - start) / 1000000)
  have hfour : ⌊due i n⌋ - ⌊((time : ℚ) - start) / 1000000⌋ ≤ 4 := by omega
  have hwait' : (⌊due i n⌋ : ℚ) - ⌊((time : ℚ) - start) / 1000000⌋ ≤ 4 := by exact_mod_cast hfour
  unfold OnTime
  linarith

/-- Behind the sleep it is due. -/
theorem onTime_of_sleep (hQ : 1 ≤ i.qps) {n time : ℕ} (htime : start ≤ time)
    (hwait : 5 ≤ waitTimeMillis (taskQps i) start n time) :
    OnTime i start n (time + (waitTimeMillis (taskQps i) start n time).toNat * 1000000) := by
  obtain ⟨w, hw⟩ : ∃ w, w = waitTimeMillis (taskQps i) start n time := ⟨_, rfl⟩
  have hdue := Int.lt_floor_add_one (due i n)
  have helapsed := Int.floor_le (((time : ℚ) - start) / 1000000)
  have hwait' : (w : ℚ) = ⌊due i n⌋ - ⌊((time : ℚ) - start) / 1000000⌋ := by
    rw [hw, waitTimeMillis_eq hQ htime, Int.cast_sub]
  have hnat : ((w.toNat : ℕ) : ℚ) = w := by
    have hint : ((w.toNat : ℕ) : ℤ) = w := Int.toNat_of_nonneg (by omega)
    exact_mod_cast hint
  rw [← hw]
  unfold OnTime
  rw [Nat.cast_add, Nat.cast_mul, hnat, Nat.cast_ofNat]
  have hsplit : ((time : ℚ) + w * 1000000 - start) / 1000000 = ((time : ℚ) - start) / 1000000 + w := by
    ring
  rw [hsplit]
  linarith

end turns

/-! ### What holds in every state -/

/-- The executions that a task has begun come before these. -/
def Phase.Fresh : Phase → ℕ → Prop
  | .ready n, m | .sleeping n _, m | .awake n, m => m < n
  | .running n, m => m ≤ n
  | .failed, _ => True

/-- An execution that is next to begin is due, or will be when its task wakes. -/
def Phase.Waits (i : Instruction) (start time : ℕ) : Phase → Prop
  | .sleeping n wake => OnTime i start n wake
  | .awake n => OnTime i start n time
  | _ => True

structure Paced (i : Instruction) (start : ℕ) (s : Timed) : Prop where
  started : start ≤ s.nanoTime
  waits : ∀ k, (s.phases k).Waits i start s.nanoTime
  bound : ∀ k, tasks i ≤ k → s.phases k = .ready 0
  late : ∀ b ∈ s.begun, OnTime i start b.executed b.time
  task : ∀ b ∈ s.begun, b.task < tasks i
  fresh : ∀ b ∈ s.begun, (s.phases b.task).Fresh b.executed
  nodup : (s.begun.map fun b => (b.task, b.executed)).Nodup

theorem paced_initial (i : Instruction) (start : ℕ) : Paced i start (initial start) where
  started := le_refl start
  waits _ := trivial
  bound _ _ := rfl
  late b hb := by cases hb
  task b hb := by cases hb
  fresh b hb := by cases hb
  nodup := List.nodup_nil

section steps
variable {i : Instruction} {start : ℕ} {s s' : Timed}

/-- A task that is under way is one of the run. -/
theorem Paced.lt_tasks (h : Paced i start s) {k : ℕ} (hk : s.phases k ≠ .ready 0) : k < tasks i := by
  by_contra hge
  exact hk (h.bound k (by omega))

/-- A task goes on to another phase. -/
theorem Paced.enter (h : Paced i start s) {k : ℕ} {phase : Phase} (hk : k < tasks i)
    (hwaits : phase.Waits i start s.nanoTime)
    (hfresh : ∀ m, (s.phases k).Fresh m → phase.Fresh m) : Paced i start (s.enter k phase) where
  started := h.started
  waits l := by
    by_cases hl : l = k
    · rw [hl]
      simp only [Timed.enter, Function.update_self]
      exact hwaits
    · simp only [Timed.enter, Function.update_of_ne hl]
      exact h.waits l
  bound l hl := by
    have hne : l ≠ k := by omega
    simp only [Timed.enter, Function.update_of_ne hne]
    exact h.bound l hl
  late := h.late
  task := h.task
  fresh b hb := by
    by_cases hl : b.task = k
    · have hold := h.fresh b hb
      rw [hl] at hold ⊢
      simp only [Timed.enter, Function.update_self]
      exact hfresh _ hold
    · simp only [Timed.enter, Function.update_of_ne hl]
      exact h.fresh b hb
  nodup := h.nodup

/-- A task begins its next execution. -/
theorem Paced.begin (h : Paced i start s) {k n : ℕ} (hphase : s.phases k = .awake n) :
    Paced i start { s.enter k (.running n) with begun := s.begun ++ [⟨k, n, s.nanoTime⟩] } := by
  have hk : k < tasks i := h.lt_tasks (by rw [hphase]; exact Phase.noConfusion)
  have hturn : OnTime i start n s.nanoTime := by
    have hwaits := h.waits k
    rwa [hphase] at hwaits
  have hentered : Paced i start (s.enter k (.running n)) := by
    refine h.enter hk trivial fun m hm => ?_
    rw [hphase] at hm
    exact Nat.le_of_lt hm
  refine { hentered with late := ?_, task := ?_, fresh := ?_, nodup := ?_ }
  · intro b hb
    rcases List.mem_append.mp hb with hb | hb
    · exact h.late b hb
    · rw [List.mem_singleton.mp hb]
      exact hturn
  · intro b hb
    rcases List.mem_append.mp hb with hb | hb
    · exact h.task b hb
    · rw [List.mem_singleton.mp hb]
      exact hk
  · intro b hb
    rcases List.mem_append.mp hb with hb | hb
    · exact hentered.fresh b hb
    · rw [List.mem_singleton.mp hb]
      simp only [Timed.enter, Function.update_self]
      exact le_refl n
  · rw [List.map_append]
    refine List.nodup_append.mpr ⟨h.nodup, List.nodup_singleton _, ?_⟩
    intro p hp q hq heq
    obtain ⟨b, hb, rfl⟩ := List.mem_map.mp hp
    rw [List.map_singleton, List.mem_singleton] at hq
    obtain ⟨htask, hexecuted⟩ := Prod.mk.inj (heq.trans hq)
    have hfresh := h.fresh b hb
    rw [htask, hphase, hexecuted] at hfresh
    exact Nat.lt_irrefl n hfresh

theorem Paced.step (hQ : 1 ≤ i.qps) (h : Paced i start s) (hstep : Step i start s s') :
    Paced i start s' := by
  cases hstep with
  | pass duration =>
      refine { h with started := Nat.le_add_right_of_le h.started, waits := fun k => ?_ }
      have hwaits := h.waits k
      cases hphase : s.phases k with
      | awake n =>
          rw [hphase] at hwaits
          exact OnTime.mono hwaits (Nat.le_add_right _ _)
      | sleeping n wake =>
          rw [hphase] at hwaits
          exact hwaits
      | _ => trivial
  | go k n hk hphase hn hwait =>
      refine h.enter hk (onTime_of_go hQ h.started hwait) fun m hm => ?_
      rw [hphase] at hm
      exact hm
  | sleep k n hk hphase hn hwait =>
      refine h.enter hk (onTime_of_sleep hQ h.started hwait) fun m hm => ?_
      rw [hphase] at hm
      exact hm
  | wake k n wake hphase hwake =>
      have hk : k < tasks i := h.lt_tasks (by rw [hphase]; exact Phase.noConfusion)
      have hwaits := h.waits k
      rw [hphase] at hwaits
      refine h.enter hk (OnTime.mono hwaits hwake) fun m hm => ?_
      rw [hphase] at hm
      exact hm
  | begin k n hphase => exact h.begin hphase
  | finish k n hphase =>
      have hk : k < tasks i := h.lt_tasks (by rw [hphase]; exact Phase.noConfusion)
      refine h.enter hk trivial fun m hm => ?_
      rw [hphase] at hm
      exact Nat.lt_succ_of_le hm
  | fail k n hphase =>
      have hk : k < tasks i := h.lt_tasks (by rw [hphase]; exact Phase.noConfusion)
      exact h.enter hk trivial fun m hm => trivial

theorem Reaches.paced (hQ : 1 ≤ i.qps) (h : Reaches i start s) : Paced i start s := by
  induction h with
  | refl => exact paced_initial i start
  | tail _ hstep ih => exact ih.step hQ hstep

/-! ### The bound -/

/-- The executions that have begun up to a time, in milliseconds behind the start. -/
def begunUpTo (start : ℕ) (s : Timed) (t : ℚ) : List Begun :=
  s.begun.filter fun b => ((b.time : ℚ) - start) / 1000000 ≤ t

/-- The numbers of the executions of a task that may have begun. -/
theorem executed_lt (hQ : 1 ≤ i.qps) (h : Paced i start s) {t : ℚ} {b : Begun}
    (hb : b ∈ begunUpTo start s t) : (b.executed : ℚ) < taskQps i * (t + 5) / 1000 := by
  obtain ⟨hmem, htime⟩ := List.mem_filter.mp hb
  have hqps := taskQps_pos hQ
  have hlate := h.late b hmem
  unfold OnTime due at hlate
  have hdue : (b.executed : ℚ) / taskQps i * 1000 < t + 5 := by
    have hle := of_decide_eq_true htime
    linarith
  have hdiv : (b.executed : ℚ) / taskQps i < (t + 5) / 1000 := by linarith
  rw [div_lt_iff₀ hqps] at hdiv
  linarith

theorem tasks_eq (hT : 1 ≤ i.threads) : (tasks i : ℤ) = i.threads.toInt := by
  rw [Int32.le_iff_toInt_le] at hT
  have hone : (1 : Int32).toInt = 1 := by decide
  unfold tasks threadCount
  split
  · omega
  · omega

/-- Every task has begun at most the executions whose turn has come. -/
theorem length_begunUpTo_le (hQ : 1 ≤ i.qps) (h : Paced i start s) (t : ℚ) :
    (begunUpTo start s t).length ≤ tasks i * ⌈taskQps i * (t + 5) / 1000⌉₊ := by
  obtain ⟨keys, hkeys⟩ : ∃ keys, keys =
    (begunUpTo start s t).map fun b => (b.task, b.executed) := ⟨_, rfl⟩
  have hnodup : keys.Nodup := by
    rw [hkeys]
    exact h.nodup.sublist (List.filter_sublist.map _)
  have hsubset : keys.toFinset ⊆
      Finset.range (tasks i) ×ˢ Finset.range ⌈taskQps i * (t + 5) / 1000⌉₊ := by
    intro key hkey
    rw [List.mem_toFinset, hkeys] at hkey
    obtain ⟨b, hb, rfl⟩ := List.mem_map.mp hkey
    rw [Finset.mem_product, Finset.mem_range, Finset.mem_range]
    exact ⟨h.task b (List.mem_filter.mp hb).1, Nat.lt_ceil.mpr (executed_lt hQ h hb)⟩
  have hcard := Finset.card_le_card hsubset
  rw [List.toFinset_card_of_nodup hnodup, Finset.card_product, Finset.card_range, Finset.card_range,
    hkeys, List.length_map] at hcard
  exact hcard

/-- **Pacing**: at most so many executions have begun at any time of any run. -/
theorem begun_le (hQ : 1 ≤ i.qps) (hT : 1 ≤ i.threads) (h : Reaches i start s) {t : ℚ} (ht : 0 ≤ t) :
    ((begunUpTo start s t).length : ℚ) ≤ i.qps.toInt * (t + 5) / 1000 + i.threads.toInt := by
  have hlength := length_begunUpTo_le hQ (h.paced hQ) t
  have htasks : (0 : ℚ) < tasks i := by exact_mod_cast tasks_pos i
  have hturn : 0 ≤ taskQps i * (t + 5) / 1000 := by
    have hqps := taskQps_pos hQ
    positivity
  have hthreads : (i.threads.toInt : ℚ) = tasks i := by
    rw [← tasks_eq hT, Int.cast_natCast]
  calc ((begunUpTo start s t).length : ℚ)
      ≤ (tasks i * ⌈taskQps i * (t + 5) / 1000⌉₊ : ℕ) := by exact_mod_cast hlength
    _ = tasks i * (⌈taskQps i * (t + 5) / 1000⌉₊ : ℚ) := Nat.cast_mul _ _
    _ ≤ tasks i * (taskQps i * (t + 5) / 1000 + 1) := by
        have hceil := Nat.ceil_lt_add_one hturn
        gcongr
    _ = i.qps.toInt * (t + 5) / 1000 + i.threads.toInt := by
        rw [taskQps_eq, hthreads]
        field_simp

end steps

/-- Ten executions per second on two threads. -/
def pacedInstruction : Instruction where
  trace := some [{}]
  times := 4
  threads := 2
  qps := 10
  collectBy := some "list"
  traceNodeTmpl := some "ok"

/-- The first execution has begun, at once. -/
def firstBegun : Timed :=
  { ((initial 7).enter 0 (.awake 0)).enter 0 (.running 0) with begun := [⟨0, 0, 7⟩] }

/-- Its task waits for its next turn, and the other task has begun its first execution. -/
def bothBegun : Timed :=
  { ((((firstBegun.enter 0 (.ready 1)).enter 0 (.sleeping 1 200000007)).enter 1 (.awake 0)).enter 1
      (.running 0)) with begun := [⟨0, 0, 7⟩, ⟨1, 0, 7⟩] }

/-- The turn has come. -/
def turnBegun : Timed :=
  { ({ bothBegun with nanoTime := 200000007 }.enter 0 (.awake 1)).enter 0 (.running 1) with
    begun := [⟨0, 0, 7⟩, ⟨1, 0, 7⟩, ⟨0, 1, 200000007⟩] }

theorem wait_first : waitTimeMillis (taskQps pacedInstruction) 7 0 7 < 5 := by
  simp [waitTimeMillis, toLong]

theorem wait_second : waitTimeMillis (taskQps pacedInstruction) 7 1 7 = 200 := by
  have hqps : taskQps pacedInstruction = 5 := by
    rw [taskQps_eq, show pacedInstruction.qps.toInt = 10 from by decide,
      show tasks pacedInstruction = 2 from by decide]
    norm_num
  rw [hqps]
  unfold waitTimeMillis
  norm_num [toLong]

theorem reaches_turnBegun : Reaches pacedInstruction 7 turnBegun := by
  have hfirst : Reaches pacedInstruction 7 firstBegun :=
    .tail (.tail .refl (.go _ 0 0 (by decide) rfl (by decide) wait_first))
      (.begin _ 0 0 (by simp [Timed.enter]))
  have hsleep : Step pacedInstruction 7 (firstBegun.enter 0 (.ready 1))
      ((firstBegun.enter 0 (.ready 1)).enter 0 (.sleeping 1 200000007)) := by
    have htime : (firstBegun.enter 0 (.ready 1)).nanoTime = 7 := rfl
    have hstep := Step.sleep (i := pacedInstruction) (firstBegun.enter 0 (.ready 1)) 0 1 (by decide)
      (by simp [Timed.enter]) (by decide) (by rw [htime, wait_second]; decide)
    rw [htime, wait_second] at hstep
    exact hstep
  have hasleep := (hfirst.tail (.finish _ 0 0 (by simp [firstBegun, Timed.enter]))).tail hsleep
  have hboth : Reaches pacedInstruction 7 bothBegun :=
    .tail (.tail hasleep (.go _ 1 0 (by decide) (by simp [firstBegun, initial, Timed.enter])
      (by decide) wait_first)) (.begin _ 1 0 (by simp [Timed.enter]))
  exact .tail (.tail (.tail hboth (.pass _ 200000000))
    (.wake _ 0 1 200000007 (by simp [bothBegun, Timed.enter]) (by decide)))
    (.begin _ 0 1 (by simp [Timed.enter]))

theorem begun_le_sample :
    ((begunUpTo 7 turnBegun 200).length : ℚ) ≤ (10 : ℤ) * (200 + 5) / 1000 + (2 : ℤ) :=
  begun_le (i := pacedInstruction) (by decide) (by decide) reaches_turnBegun (by norm_num)

end Powerful.Pacing
