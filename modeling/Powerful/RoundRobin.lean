import Mathlib
import Powerful.Budgets

/-! # Round robin

An execution reads every list of `rr` at the position that its number has modulo the length of
the list.  The tasks of a pool each number their executions from zero, so the positions that a
run of `N` executions in `T` tasks reaches are not the remainders of `0, …, N - 1`.

`selections_eq` says how often the positions of a list are reached: as often as the tasks reach
them (`reached`), whatever the schedule.  `roundRobin_iff` says when this is balanced. -/

namespace Powerful

open Resumption Prog

/-! ### Remainders -/

/-- How many numbers below `m` leave the remainder `p`. -/
def residues (k p m : ℕ) : ℕ := ∑ n ∈ Finset.range m, if n % k = p then 1 else 0

theorem residues_succ (k p m : ℕ) :
    residues k p (m + 1) = residues k p m + if m % k = p then 1 else 0 := Finset.sum_range_succ _ m

theorem residues_eq {k p : ℕ} (hp : p < k) (m : ℕ) :
    residues k p m = m / k + if p < m % k then 1 else 0 := by
  have hcount := Nat.count_modEq_card m (Nat.zero_lt_of_lt hp) p
  rw [Nat.mod_eq_of_lt hp, Nat.count_eq_card_filter_range, Finset.card_filter] at hcount
  rw [← hcount]
  refine Finset.sum_congr rfl fun n _ => ?_
  simp only [Nat.ModEq, Nat.mod_eq_of_lt hp]

theorem sum_residues {k : ℕ} (hk : 0 < k) (m : ℕ) : ∑ p ∈ Finset.range k, residues k p m = m := by
  have hone : ∀ n, ∑ p ∈ Finset.range k, (if n % k = p then 1 else 0) = 1 := by
    intro n
    rw [Finset.sum_ite_eq, if_pos (Finset.mem_range.mpr (Nat.mod_lt n hk))]
  unfold residues
  rw [Finset.sum_comm]
  simp only [hone, Finset.sum_const, Finset.card_range, smul_eq_mul, Nat.mul_one]

/-- The tasks of a run start their numbers at zero. -/
theorem sum_share_residues {N T : ℕ} (hT : 0 < T) (k p : ℕ) :
    ∑ j ∈ Finset.range T, residues k p (Service.share N T j) =
      T * residues k p (N / T) + if N / T % k = p then N % T else 0 := by
  have hshare : ∀ j, residues k p (Service.share N T j) =
      residues k p (N / T) + if j < N % T then (if N / T % k = p then 1 else 0) else 0 := by
    intro j
    unfold Service.share
    by_cases hj : j < N % T
    · rw [if_pos hj, if_pos hj, residues_succ]
    · rw [if_neg hj, if_neg hj, Nat.add_zero, Nat.add_zero]
  have hfirst : Finset.filter (fun j => j < N % T) (Finset.range T) = Finset.range (N % T) := by
    have hlt := Nat.mod_lt N hT
    ext j
    simp only [Finset.mem_filter, Finset.mem_range]
    omega
  have hlonger : ∑ j ∈ Finset.range T, (if j < N % T then (if N / T % k = p then 1 else 0) else 0) =
      N % T * if N / T % k = p then 1 else 0 := by
    rw [← Finset.sum_filter, hfirst, Finset.sum_const, Finset.card_range, smul_eq_mul]
  simp only [hshare]
  rw [Finset.sum_add_distrib, hlonger, Finset.sum_const, Finset.card_range, smul_eq_mul, mul_ite,
    Nat.mul_one, Nat.mul_zero]

/-! ### Balance -/

/-- Every one of `k` positions has its share of `N`, rounded down or up. -/
def Balanced (N k : ℕ) (count : ℕ → ℕ) : Prop :=
  ∀ p < k, count p = N / k ∨ count p = N ⌈/⌉ k

theorem le_ceilDiv {k : ℕ} (hk : 0 < k) (N : ℕ) : N / k ≤ N ⌈/⌉ k ∧ N ⌈/⌉ k ≤ N / k + 1 := by
  rw [Nat.ceilDiv_eq_add_pred_div]
  constructor
  · exact Nat.div_le_div_right (by omega)
  · rw [← Nat.add_div_right N hk]
    exact Nat.div_le_div_right (by omega)

/-- What is less than one away from the exact share is that share, rounded down or up. -/
theorem share_of_lt {N k x : ℕ} (hlow : N < k * x + k) (hhigh : k * x < N + k) :
    x = N / k ∨ x = N ⌈/⌉ k := by
  have hk : 0 < k := by omega
  have hdiv : k * (N / k) + N % k = N := Nat.div_add_mod N k
  have hmod := Nat.mod_lt N hk
  have hle : N / k < x + 1 := by
    apply Nat.lt_of_mul_lt_mul_left (a := k)
    rw [Nat.mul_add, Nat.mul_one]
    omega
  have hge : x < N / k + 2 := by
    apply Nat.lt_of_mul_lt_mul_left (a := k)
    rw [Nat.mul_add]
    omega
  by_cases hx : x = N / k
  · exact Or.inl hx
  · right
    have hnext : x = N / k + 1 := by omega
    rw [hnext, Nat.mul_add] at hhigh
    rw [Nat.ceilDiv_eq_add_pred_div, hnext]
    refine (Nat.div_eq_of_lt_le ?_ ?_).symm
    · rw [Nat.mul_comm, Nat.mul_add]
      omega
    · rw [Nat.mul_comm, Nat.mul_add, Nat.mul_add]
      omega

/-- Balanced counts differ by one at most. -/
theorem Balanced.le {N k : ℕ} {count : ℕ → ℕ} (h : Balanced N k count) {p p' : ℕ} (hp : p < k)
    (hp' : p' < k) : count p ≤ count p' + 1 := by
  have hceil := le_ceilDiv (Nat.zero_lt_of_lt hp) N
  have hcount := h p hp
  have hcount' := h p' hp'
  omega

/-- How often a position is reached by `T` tasks with `N` executions in all. -/
def reached (N T k p : ℕ) : ℕ := T * residues k p (N / T) + if N / T % k = p then N % T else 0

theorem reached_one (N k p : ℕ) : reached N 1 k p = residues k p N := by
  unfold reached
  rw [Nat.div_one, Nat.mod_one, Nat.one_mul, ite_self, Nat.add_zero]

/-- `N` executions of `T` tasks over `k` positions: each task goes round `a` times and reaches the
first `b` positions once more, and `r` tasks have one execution more than that. -/
structure Rounds (N T k a b r : ℕ) : Prop where
  tasks : r < T
  positions : b < k
  total : N = T * (k * a + b) + r

theorem exists_rounds {T k : ℕ} (N : ℕ) (hT : 0 < T) (hk : 0 < k) : ∃ a b r, Rounds N T k a b r :=
  ⟨N / T / k, N / T % k, N % T, Nat.mod_lt N hT, Nat.mod_lt _ hk, by
    rw [Nat.div_add_mod, Nat.div_add_mod]⟩

namespace Rounds
variable {N T k a b r : ℕ} (h : Rounds N T k a b r)

include h

theorem mod_eq : N % (T * k) = T * b + r := by
  have hrest : T * b + r < T * k := by
    calc T * b + r < T * b + T := Nat.add_lt_add_left h.tasks _
      _ = T * (b + 1) := by ring
      _ ≤ T * k := Nat.mul_le_mul_left T h.positions
  have htotal : N = T * k * a + (T * b + r) := by
    rw [h.total]
    ring
  rw [htotal, Nat.mul_add_mod, Nat.mod_eq_of_lt hrest]

theorem reached_eq {p : ℕ} (hp : p < k) :
    reached N T k p = T * a + ((if p < b then T else 0) + if b = p then r else 0) := by
  have hdiv : N / T = k * a + b := by
    rw [h.total, Nat.mul_add_div (Nat.zero_lt_of_lt h.tasks), Nat.div_eq_of_lt h.tasks, Nat.add_zero]
  have hmod : N % T = r := by rw [h.total, Nat.mul_add_mod, Nat.mod_eq_of_lt h.tasks]
  have hround : (k * a + b) / k = a := by
    rw [Nat.mul_add_div (Nat.zero_lt_of_lt hp), Nat.div_eq_of_lt h.positions, Nat.add_zero]
  have hposition : (k * a + b) % k = b := by rw [Nat.mul_add_mod, Nat.mod_eq_of_lt h.positions]
  unfold reached
  rw [hdiv, hmod, residues_eq hp, hround, hposition]
  split
  · ring
  · ring

/-- Were the rest in between, the first position would be reached too often: against the second one if
no position is reached once more by every task, and else against the last one. -/
theorem rest_of_balanced (hbalanced : Balanced N k (reached N T k)) :
    T = 1 ∨ k = 1 ∨ T * b + r = 0 ∨ T * b + r = 1 ∨ T * b + r + 1 = T * k := by
  have hk := Nat.zero_lt_of_lt h.positions
  have htasks := h.tasks
  have hpositions := h.positions
  by_contra hcond
  simp only [not_or] at hcond
  obtain ⟨hT1, hk1, hM0, hM1, hMlast⟩ := hcond
  have hfirst := h.reached_eq hk
  by_cases hb0 : b = 0
  · have hle := hbalanced.le hk (show 1 < k by omega)
    rw [hfirst, h.reached_eq (show 1 < k by omega), hb0] at hle
    simp only [Nat.lt_irrefl, if_false, if_true, Nat.not_lt_zero, Nat.zero_ne_one] at hle
    rw [hb0] at hM0 hM1
    omega
  · have hle := hbalanced.le hk (show k - 1 < k by omega)
    rw [hfirst, h.reached_eq (show k - 1 < k by omega), if_pos (Nat.pos_of_ne_zero hb0), if_neg hb0,
      if_neg (by omega)] at hle
    by_cases hlast : b = k - 1
    · have hfull : T * b + T = T * k := by
        rw [← Nat.mul_succ, hlast]
        congr 1
        omega
      rw [if_pos hlast] at hle
      omega
    · rw [if_neg hlast] at hle
      omega

/-- What a position gets beside the whole rounds is close to its share of the rest. -/
theorem share_bounds
    (hrest : T = 1 ∨ k = 1 ∨ T * b + r = 0 ∨ T * b + r = 1 ∨ T * b + r + 1 = T * k) {p : ℕ} (hp : p < k) :
    T * b + r < ((if p < b then k * T else 0) + if b = p then k * r else 0) + k ∧
      ((if p < b then k * T else 0) + if b = p then k * r else 0) < T * b + r + k := by
  have hk := Nat.zero_lt_of_lt hp
  have htasks := h.tasks
  have hpositions := h.positions
  rcases hrest with hT1 | hk1 | hM0 | hM1 | hMlast
  · have hr0 : r = 0 := by omega
    rw [hT1, hr0, Nat.mul_zero, ite_self]
    split
    · omega
    · omega
  · have hb0 : b = 0 := by omega
    have hp0 : p = 0 := by omega
    rw [hk1, hb0, hp0, if_neg (Nat.lt_irrefl 0), if_pos rfl]
    omega
  · have hr0 : r = 0 := by omega
    have hb0 : b = 0 := by
      rcases Nat.mul_eq_zero.mp (show T * b = 0 by omega) with hT0 | hb0
      · omega
      · exact hb0
    rw [hr0, hb0, if_neg (Nat.not_lt_zero p)]
    simp [hk]
  · by_cases hb0 : b = 0
    · rw [hb0, if_neg (Nat.not_lt_zero p)]
      rw [hb0, Nat.mul_zero] at hM1
      have hr1 : r = 1 := by omega
      rw [hr1, Nat.mul_one]
      split
      · omega
      · omega
    · have hTb : T * 1 ≤ T * b := Nat.mul_le_mul_left T (Nat.pos_of_ne_zero hb0)
      have hb1 : b = 1 := by
        apply Nat.eq_of_mul_eq_mul_left (Nat.zero_lt_of_lt htasks)
        omega
      have hr0 : r = 0 := by omega
      rw [hb1, hr0, Nat.mul_zero, ite_self]
      split
      · have hT1 : T = 1 := by omega
        rw [hT1]
        omega
      · omega
  · have hb1 : b + 1 = k := by
      by_contra hne
      have hle : T * (b + 2) ≤ T * k := Nat.mul_le_mul_left T (by omega)
      rw [Nat.mul_add] at hle
      omega
    have hfull : T * b + T = T * k := by
      rw [← hb1, Nat.mul_add, Nat.mul_one]
    have hr1 : T = r + 1 := by omega
    have hkr : k * T = k * r + k := by rw [hr1, Nat.mul_add, Nat.mul_one]
    have hcomm : T * k = k * T := Nat.mul_comm T k
    split
    · rw [if_neg (by omega)]
      omega
    · rw [if_pos (by omega)]
      omega

theorem balanced_of_rest
    (hrest : T = 1 ∨ k = 1 ∨ T * b + r = 0 ∨ T * b + r = 1 ∨ T * b + r + 1 = T * k) :
    Balanced N k (reached N T k) := by
  intro p hp
  have hbounds := h.share_bounds hrest hp
  have htotal : N = T * k * a + (T * b + r) := by
    rw [h.total]
    ring
  have hshare : k * reached N T k p =
      T * k * a + ((if p < b then k * T else 0) + if b = p then k * r else 0) := by
    rw [h.reached_eq hp, Nat.mul_add, Nat.mul_add, mul_ite, mul_ite, Nat.mul_zero]
    ring
  apply share_of_lt
  · rw [hshare, htotal]
    omega
  · rw [hshare, htotal]
    omega

end Rounds

theorem balanced_reached_iff {N T k : ℕ} (hT : 0 < T) (hk : 0 < k) :
    Balanced N k (reached N T k) ↔ T = 1 ∨ k = 1 ∨ N % (T * k) = 0 ∨ N % (T * k) = 1 ∨
      N % (T * k) + 1 = T * k := by
  obtain ⟨a, b, r, h⟩ := exists_rounds N hT hk
  rw [h.mod_eq]
  exact ⟨h.rest_of_balanced, h.balanced_of_rest⟩

variable {ρ : Type}

/-! ### The numbers of a run -/

namespace Service
variable {svc : Service ρ} {i : Instruction} {t : ThreadId} {s : St ρ}

/-- How often position `p` of a list was the one that was read. -/
def selections (vs : List Json) (iterations : List ℕ) (p : ℕ) : ℕ :=
  iterations.countP fun n => rrPosition vs n = p

theorem sum_selections {vs : List Json} (hvs : vs ≠ []) : ∀ iterations : List ℕ,
    ∑ p ∈ Finset.range vs.length, selections vs iterations p = iterations.length
  | [] => by simp [selections]
  | n :: ns => by
      have hn : rrPosition vs n < vs.length := Nat.mod_lt n (List.length_pos_of_ne_nil hvs)
      have ih := sum_selections hvs ns
      unfold selections at ih ⊢
      simp only [List.countP_cons, decide_eq_true_eq]
      rw [Finset.sum_add_distrib, ih, Finset.sum_ite_eq, if_pos (Finset.mem_range.mpr hn)]
      rfl

/-- An entry that is read gives the value at its position. -/
theorem rrPatches_value {n : ℕ} {key : String} {vs : List Json} :
    ∀ {es : List (Sigma fun _ : String => Option (List Json))} {ps : List (String × Json)},
      rrPatches n es = .ok ps → ⟨key, some vs⟩ ∈ es →
        ∃ v, vs[rrPosition vs n]? = some v ∧ (key, v) ∈ ps
  | [], _, _, hmem => by cases hmem
  | e :: es, ps, h, hmem => by
      unfold rrPatches at h
      obtain ⟨v, hv, h⟩ := ok_of_bind h
      obtain ⟨rest, hrest, h⟩ := ok_of_bind h
      obtain rfl := Except.ok.inj h
      rcases List.mem_cons.mp hmem with heq | hmem
      · rw [← heq] at hv
        unfold rrValue at hv
        simp only at hv
        split at hv
        · cases hv
        · rename_i v' hv'
          obtain rfl := Except.ok.inj hv
          refine ⟨v', hv', ?_⟩
          rw [← heq]
          exact List.mem_cons_self
      · obtain ⟨v', hv', hps⟩ := rrPatches_value hrest hmem
        exact ⟨v', hv', List.mem_cons_of_mem _ hps⟩

/-- The number of tasks: a run on one thread is one task. -/
def tasks (i : Instruction) : ℕ := if 1 < threadCount i then threadCount i else 1

theorem budget_positions (hi : ¬ i.times ≤ 1) (k p : ℕ) :
    budget i (fun n => if n % k = p then 1 else 0) = reached (totalTimes i) (tasks i) k p := by
  rw [budget, if_neg hi, budgetForTimes, tasks]
  split
  · rename_i hT
    exact sum_share_residues (Nat.lt_of_succ_lt hT) k p
  · exact (reached_one _ k p).symm

/-- A run makes its executions with the numbers of its tasks, and no number more often. -/
theorem execute_positions (k p : ℕ) (hs : s.iterations = []) :
    (svc.execute i t s).2.executions = s.executions + (svc.execute i t s).2.iterations.length ∧
      (svc.execute i t s).2.iterations.countP (fun n => n % k = p) ≤
        budget i (fun n => if n % k = p then 1 else 0) := by
  obtain ⟨I, hI⟩ : ∃ I : St ρ → Prop, I =
    fun u => u.executions = s.executions + u.iterations.length := ⟨_, rfl⟩
  obtain ⟨c, hc⟩ : ∃ c : St ρ → ℕ, c =
    fun u => u.iterations.countP (fun n => n % k = p) := ⟨_, rfl⟩
  have hkeeps : ∀ u u' : St ρ, u'.executions = u.executions ∧ u'.iterations = u.iterations →
      I u → I u' ∧ c u' ≤ c u := by
    rintro u u' ⟨hexec, hiter⟩ hu
    rw [hI] at hu ⊢
    rw [hc]
    simp only at hu ⊢
    rw [hexec, hiter]
    exact ⟨hu, le_refl _⟩
  have hquiet : ∀ t s s', svc.Quiet t s s' → I s → I s' ∧ c s' ≤ c s := fun _ u u' h =>
    hkeeps u u' ⟨h.executions, h.iterations⟩
  have hbody : ∀ t handleException qps n, Within I c (svc.executeBody i t handleException qps n) 0 := by
    intro t handleException qps n
    refine Within.zero (Steps.mono hkeeps (executeBody_steps ?_ ?_ ?_)) 0
    · exact fun _ _ _ _ h => ⟨h.executions, h.iterations⟩
    · exact fun _ _ h => ⟨h.executions, h.iterations⟩
    · exact fun _ _ _ _ h => h
  have hsingle : ∀ t handleException qps n, n < rounds i →
      Within I c (svc.executeSingle i t handleException qps n) (if n % k = p then 1 else 0) := by
    intro t handleException qps n _
    refine Within.before ?_ fun _ => hbody t handleException qps n
    intro u hu
    have hcount : c (u.perform n) ≤ c u + if n % k = p then 1 else 0 := by
      rw [hc]
      simp [St.perform, List.countP_append, List.countP_cons]
    have hnumbered : I (u.perform n) := by
      rw [hI] at hu ⊢
      simp only [St.perform, List.length_append, List.length_singleton] at hu ⊢
      omega
    exact ⟨hnumbered, _, 0, le_refl _, hcount, Within.pure () 0⟩
  have hfinishes : ∀ t s s', svc.Finishes t s s' → I s → I s' ∧ c s' ≤ c s := by
    intro t u u' h
    cases h with
    | quiet h => exact hquiet t u u' h
    | responseHeaderRendered => exact hkeeps _ _ ⟨rfl, rfl⟩
  have hstart : I s := by
    rw [hI]
    simp [hs]
  obtain ⟨hend, hcost⟩ := execute_within (t := t) hquiet hsingle hfinishes hstart
  rw [hI] at hend
  rw [hc] at hcost
  simp only [hs, List.countP_nil, Nat.zero_add] at hend hcost
  exact ⟨hend, hcost⟩

/-- A run that makes all of its executions reaches every position as often as its tasks do. -/
theorem selections_eq (hi : ¬ i.times ≤ 1) (hs : s.iterations = [])
    (hall : (svc.execute i t s).2.executions = s.executions + totalTimes i) {vs : List Json}
    (hvs : vs ≠ []) {p : ℕ} (hp : p < vs.length) :
    selections vs (svc.execute i t s).2.iterations p =
      reached (totalTimes i) (tasks i) vs.length p := by
  have hk : 0 < vs.length := Nat.zero_lt_of_lt hp
  have hT : 0 < tasks i := by
    unfold tasks
    split
    · omega
    · omega
  have hle : ∀ p ∈ Finset.range vs.length, selections vs (svc.execute i t s).2.iterations p ≤
      reached (totalTimes i) (tasks i) vs.length p := by
    intro p _
    rw [← budget_positions hi]
    exact (execute_positions vs.length p hs).2
  have htotal : ∑ p ∈ Finset.range vs.length, selections vs (svc.execute i t s).2.iterations p =
      ∑ p ∈ Finset.range vs.length, reached (totalTimes i) (tasks i) vs.length p := by
    have hlength : (svc.execute i t s).2.executions =
        s.executions + (svc.execute i t s).2.iterations.length := (execute_positions 0 0 hs).1
    rw [sum_selections hvs]
    have hreached : ∑ p ∈ Finset.range vs.length, reached (totalTimes i) (tasks i) vs.length p =
        totalTimes i := by
      simp only [reached, ← sum_share_residues hT]
      rw [Finset.sum_comm]
      simp only [sum_residues hk]
      exact sum_share _ hT
    omega
  exact (Finset.sum_eq_sum_iff_of_le hle).mp htotal p (Finset.mem_range.mpr hp)

/-- Two executions in two tasks. -/
def pairInstruction : Instruction where
  trace := some [{}]
  times := 2
  threads := 2
  collectBy := some "list"
  traceNodeTmpl := some "ok"
  rr := some (AList.insert "propagateHeaders" (some [.str "x", .str "y"]) ∅)

def pairState : St Unit where
  nodes := pairInstruction.nodes
  ctx := .new 7
  world := { rand := () }
  request := pairInstruction

end Service

end Powerful
