import Mathlib
import Powerful.CaseValidator
import Powerful.Decimals
import Powerful.ResponseHeaders

/-! # Judging a run by its counts

A case may expect, for every record of a run with `stat_count`, how often it occurs.  The
validator reads a count that is missing as the empty text, which lies in no interval, so a
record that never occurs fails even if its interval allows that (`validate_run_missing`).
`validate_run_iff` says what passes: the records that occur must be the expected ones, each as
often as its interval says.

The results of a run are those that its collector gets (`results`); that these are what the
report counts says `results_of_report`. -/

namespace Powerful

open Resumption Prog

variable {ρ : Type}

/-! ### Intervals -/

/-- What an expectation says of one record: how often it is to occur. -/
structure Expected where
  record : String
  min : ℕ
  max : ℕ

/-- The interval as it is written. -/
def Expected.interval (e : Expected) : String := toString e.min ++ ":" ++ toString e.max

/-- The expectation as it is read from a case. -/
def expectation (es : List Expected) : Json := .obj (es.map fun e => (e.record, .str e.interval))

/-- The Java library on intervals: as a regular expression the text of one matches itself only,
and decimal digits are read as their number.  Above `2 ^ 53` that number is rounded. -/
structure JavaLib.ReadsIntervals (lib : JavaLib) : Prop where
  matches_iff : ∀ (e : Expected) (s : String), lib.matches e.interval s = some (decide (s = e.interval))
  parse_exact : ∀ n : ℕ, n ≤ 2 ^ 53 → lib.parseDouble (toString n) = some (Double.finite n)
  parse_large : ∀ n : ℕ, 2 ^ 53 < n → ∃ d, lib.parseDouble (toString n) = some d ∧
    Double.le (Double.finite (2 ^ 53 : ℕ)) d

namespace CaseValidator

theorem toList_toString (n : ℕ) : (toString n).toList = Nat.toDigits 10 n := by
  rw [Nat.toString_eq_repr, Nat.toList_repr]

theorem colon_not_mem (n : ℕ) : ':' ∉ (toString n).toList :=
  fun h => absurd (Decimals.isDigit_toString n ':' h) (by decide)

theorem interval_toList (e : Expected) :
    e.interval.toList = (toString e.min).toList ++ ':' :: (toString e.max).toList :=
  toList_colon _ _

theorem interval_not_number (e : Expected) (n : ℕ) : e.interval ≠ toString n := by
  intro h
  refine colon_not_mem n ?_
  rw [← h, interval_toList]
  simp

theorem interval_ne_empty (e : Expected) : e.interval ≠ "" := by
  intro h
  have hlist := interval_toList e
  rw [h] at hlist
  simp at hlist

variable {lib : JavaLib} (hlib : lib.ReadsIntervals)
include hlib

theorem matchOrEquals_interval (e : Expected) {s : String} (hs : e.interval ≠ s) :
    matchOrEquals lib e.interval s = false := by
  unfold matchOrEquals
  rw [hlib.matches_iff]
  simp [hs, Ne.symm hs]

omit hlib in
theorem finite_le_finite (m n : ℕ) : Double.le (.finite m) (.finite n) = decide (m ≤ n) := by
  unfold Double.le Double.finite
  simp only [WithBot.coe_le_coe, WithTop.coe_le_coe, Nat.cast_le]

/-- A bound is compared with a count as it is written. -/
theorem parseDouble_bound (n : ℕ) : ∃ d, parseDouble lib (toString n) = .ok d ∧
    ∀ m : ℕ, m < 2 ^ 53 → Double.le d (.finite m) = decide (n ≤ m) ∧
      Double.le (.finite m) d = decide (m ≤ n) := by
  rcases Nat.lt_or_ge (2 ^ 53) n with hlarge | hexact
  · obtain ⟨d, hd, hle⟩ := hlib.parse_large n hlarge
    refine ⟨d, by rw [parseDouble, hd], fun m hm => ?_⟩
    cases d with
    | none => cases hle
    | some x =>
        unfold Double.le Double.finite at *
        simp only [decide_eq_true_eq] at hle
        have hlt : (((m : ℚ) : WithTop ℚ) : WithBot (WithTop ℚ)) < x := by
          refine lt_of_lt_of_le ?_ hle
          rw [WithBot.coe_lt_coe, WithTop.coe_lt_coe]
          exact_mod_cast hm
        constructor
        · show decide (x ≤ _) = _
          rw [decide_eq_false (not_le_of_gt hlt), decide_eq_false (by omega)]
        · show decide (_ ≤ x) = _
          rw [decide_eq_true (le_of_lt hlt), decide_eq_true (by omega)]
  · refine ⟨.finite n, by rw [parseDouble, hlib.parse_exact n hexact], fun m _ => ?_⟩
    exact ⟨finite_le_finite n m, finite_le_finite m n⟩

theorem validateNumber_interval (e : Expected) {n : ℕ} (hn : n < 2 ^ 53) :
    validateNumber lib e.interval n = .ok (decide (e.min ≤ n) && decide (n ≤ e.max)) := by
  obtain ⟨dmin, hmin, hlow⟩ := parseDouble_bound hlib e.min
  obtain ⟨dmax, hmax, hhigh⟩ := parseDouble_bound hlib e.max
  unfold Expected.interval
  rw [validateNumber_colon lib (Decimals.toString_ne_nil e.min) (colon_not_mem e.min) (Decimals.toString_ne_nil e.max)
    (colon_not_mem e.max) hmin hmax, (hlow n hn).1, (hhigh n hn).2]

/-- A count passes if it lies in the interval. -/
theorem validate_count (h : Host ρ) (e : Expected) {n : ℕ} (hn : n < 2 ^ 53) :
    validate h lib (.str e.interval) (.int n) = .ok true ↔ e.min ≤ n ∧ n ≤ e.max := by
  have hmatch : matchOrEquals lib e.interval (toString (n : ℤ)) = false :=
    matchOrEquals_interval hlib e (interval_not_number e n)
  rw [validate, validateText, hmatch, if_neg Bool.false_ne_true]
  have hnumber := validateNumber_interval hlib e hn
  rw [Int.cast_natCast, hnumber]
  simp

/-- A missing count is read as the empty text, which is no interval. -/
theorem validate_missing (h : Host ρ) (e : Expected) :
    validate h lib (.str e.interval) .null = .ok false := by
  rw [validate, validateText, matchOrEquals_interval hlib e (interval_ne_empty e)]

/-- **Validation of counts**: every record is expected, every expected one is a record, and each
occurs as often as it may. -/
theorem validate_counts (h : Host ρ) (es : List Expected) {records : List String} {result : Json}
    (hreports : Service.Reports "stat_count" records result) (hlen : records.length < 2 ^ 53) :
    validate h lib (expectation es) result = .ok true ↔
      (∀ r ∈ records, ∃ e ∈ es, e.record = r) ∧
      ∀ e ∈ es, e.record ∈ records ∧ e.min ≤ records.count e.record ∧
        records.count e.record ≤ e.max := by
  obtain ⟨counts, rfl, hnodup, hkeys, hvalues, -⟩ := hreports.2.2 rfl
  have hnames : (counts.map fun c => (c.1, Json.int c.2)).map Prod.fst = counts.map Prod.fst := by
    rw [List.map_map]
    rfl
  have hfield : ∀ e : Expected, validate h lib (.str e.interval)
      (((counts.map fun c => (c.1, Json.int c.2)).lookup e.record).getD .null) = .ok true ↔
        e.record ∈ records ∧ e.min ≤ records.count e.record ∧ records.count e.record ≤ e.max := by
    intro e
    by_cases hmem : e.record ∈ records
    · obtain ⟨c, hc, hrecord⟩ := List.mem_map.mp ((hkeys e.record).mpr hmem)
      have hlookup : (counts.map fun c => (c.1, Json.int c.2)).lookup e.record =
          some (.int (records.count e.record : ℕ)) := by
        rw [← hrecord, ← hvalues c hc]
        have hfields : (c.1, Json.int c.2) ∈ counts.map fun c => (c.1, Json.int c.2) :=
          List.mem_map_of_mem hc
        exact Json.lookup_of_mem (by rw [hnames]; exact hnodup) hfields
      have hbound : records.count e.record < 2 ^ 53 := lt_of_le_of_lt List.count_le_length hlen
      rw [hlookup, Option.getD_some, validate_count hlib h e hbound]
      exact (and_iff_right hmem).symm
    · have hlookup : (counts.map fun c => (c.1, Json.int c.2)).lookup e.record = none := by
        apply Json.lookup_eq_none_of_notMem
        rw [hnames, hkeys]
        exact hmem
      rw [hlookup, Option.getD_none, validate_missing hlib h e]
      exact iff_of_false (by simp) fun hall => hmem hall.1
  have hexpected : ∀ k, k ∈ (es.map fun e => (e.record, Json.str e.interval)).map Prod.fst ↔
      ∃ e ∈ es, e.record = k := by
    intro k
    rw [List.map_map]
    exact List.mem_map
  unfold expectation
  rw [validate_obj_iff]
  constructor
  · rintro ⟨rs, hrs, hknown, hfields⟩
    obtain rfl := Option.some.inj hrs
    constructor
    · intro r hr
      obtain ⟨c, hc, rfl⟩ := List.mem_map.mp ((hkeys r).mpr hr)
      exact (hexpected c.1).mp (hknown _ (List.mem_map_of_mem hc))
    · intro e he
      exact (hfield e).mp (hfields _ (List.mem_map_of_mem he))
  · rintro ⟨hknown, hfields⟩
    refine ⟨_, rfl, ?_, ?_⟩
    · intro f hf
      obtain ⟨c, hc, rfl⟩ := List.mem_map.mp hf
      exact (hexpected c.1).mpr (hknown c.1 ((hkeys c.1).mp (List.mem_map_of_mem hc)))
    · intro f hf
      obtain ⟨e, he, rfl⟩ := List.mem_map.mp hf
      exact (hfield e).mpr (hfields e he)

/-- The text of a single record passes only if nothing is expected, and it is empty. -/
theorem validate_single (h : Host ρ) (es : List Expected) (record : Option String) :
    validate h lib (expectation es) (ofString record) = .ok true ↔
      es = [] ∧ record.getD "" = "" := by
  have hmap : resultMap (ofString record) = if record.getD "" = "" then some [] else none := by
    cases record with
    | none => rfl
    | some text => rfl
  unfold expectation
  rw [validate_obj_iff, hmap]
  constructor
  · rintro ⟨rs, hrs, -, hfields⟩
    by_cases hempty : record.getD "" = ""
    · rw [if_pos hempty] at hrs
      obtain rfl := Option.some.inj hrs
      cases es with
      | nil => exact ⟨rfl, hempty⟩
      | cons e es =>
          have hfirst := hfields (e.record, .str e.interval) (by simp)
          have hmissing : validate h lib (.str e.interval) .null = .ok true := hfirst
          rw [validate_missing hlib h e] at hmissing
          cases hmissing
    · rw [if_neg hempty] at hrs
      cases hrs
  · rintro ⟨rfl, hempty⟩
    exact ⟨[], if_pos hempty, by simp, by simp⟩

end CaseValidator

/-! ### The results of a run -/

namespace Service
variable {svc : Service ρ} {i : Instruction} {t : ThreadId} {s : St ρ}

theorem acceptAll_ok {collectBy : String} : ∀ {rs rs' : List Result},
    acceptAll collectBy rs = .ok rs' → rs' = rs ∧ ∀ r ∈ rs, accept collectBy r = .ok r
  | [], rs', h => by
      obtain rfl := Except.ok.inj h
      exact ⟨rfl, by simp⟩
  | r :: rs, rs', h => by
      obtain ⟨r', hr, h⟩ := ok_of_bind h
      obtain ⟨rest, hrest, h⟩ := ok_of_bind h
      obtain rfl := Except.ok.inj h
      obtain rfl := accept_ok hr
      obtain ⟨rfl, hall⟩ := acceptAll_ok hrest
      refine ⟨rfl, fun r hr' => ?_⟩
      rcases List.mem_cons.mp hr' with rfl | hr'
      · exact hr
      · exact hall r hr'

/-- A task leaves a result for each execution of its share, or none at all. -/
theorem worker_length : ∀ ks : List ℕ, Ends (fun r => ∀ os, r = .ok os → ∀ o ∈ os, ∀ rs,
    o.2 = .ok rs → rs.length = share (totalTimes i) (threadCount i) o.1) (svc.worker i t ks)
  | [], s => by
      intro u _ os hos o ho
      obtain rfl := Except.ok.inj hos
      cases ho
  | k :: ks, s => by
      refine Holds.bind (Holds.attempt (Holds.mono ?_ (Ends.range _ _ _ s)))
      intro outcome u houtcome
      refine Holds.bind (Holds.mono ?_ (worker_length ks u))
      intro r v hr
      cases r with
      | error e =>
          intro os hos
          cases hos
      | ok os =>
          intro w _ os' hos' o ho rs hrs
          obtain rfl := Except.ok.inj hos'
          rcases List.mem_cons.mp ho with rfl | ho
          · exact houtcome rs hrs
          · exact hr os rfl o ho rs hrs

theorem futureResults_length {ks : List ℕ} {futures : List (Except Exc (List Result))}
    (h : List.Forall₂ (fun k o => ∀ rs, o = .ok rs → rs.length =
      share (totalTimes i) (threadCount i) k) ks futures) :
    ∀ {rs : List Result}, futureResults futures = .ok rs →
      rs.length = (ks.map (share (totalTimes i) (threadCount i))).sum := by
  induction h with
  | nil =>
      intro rs hrs
      obtain rfl := Except.ok.inj hrs
      rfl
  | @cons k o ks os hko _ ih =>
      intro rs hrs
      obtain ⟨first, hfirst, hrs⟩ := ok_of_bind hrs
      obtain ⟨rest, hrest, hrs⟩ := ok_of_bind hrs
      obtain rfl := Except.ok.inj hrs
      cases o with
      | error e => cases hfirst
      | ok first' =>
          obtain rfl := Except.ok.inj hfirst
          rw [List.length_append, ih hrest, hko first' rfl, List.map_cons, List.sum_cons]

/-- A run that reports has a result for each of its executions. -/
theorem results_of_report {collectBy : String} {result : Json} {s' : St ρ}
    (hcollect : i.collectBy = some collectBy) (hcollects : collects collectBy = true)
    (hrun : svc.executeForTimes i t s = (.ok result, s')) :
    ∃ rs, svc.results i t s = .ok rs ∧ rs.length = totalTimes i ∧
      (∀ r ∈ rs, accept collectBy r = .ok r) ∧ report collectBy rs = .ok result := by
  obtain ⟨s₁, hs₁⟩ : ∃ s₁, s₁ = ((draw svc.host.nanoTime).run s).2 := ⟨_, rfl⟩
  unfold executeForTimes at hrun
  unfold results
  rw [← hs₁] at hrun ⊢
  by_cases hT : 1 < threadCount i
  · simp only [if_pos hT, hcollect, hcollects] at hrun ⊢
    cases hpool : svc.runPool i s₁ with
    | mk futures s₂ =>
        rw [hpool] at hrun
        cases futures with
        | none => cases (Prod.mk.inj hrun).1
        | some futures =>
            obtain ⟨rs, hrs, hcollected⟩ := ok_of_bind (Prod.mk.inj hrun).1
            obtain ⟨rs', hrs', hreport⟩ := ok_of_bind hcollected
            obtain ⟨rfl, hall⟩ := acceptAll_ok hrs'
            refine ⟨rs', hrs, ?_, hall, hreport⟩
            have hfutures : (svc.runPool i s₁).1 = some futures := by rw [hpool]
            have hlengths : List.Forall₂ (fun k o => ∀ rs, o = .ok rs → rs.length =
                share (totalTimes i) (threadCount i) k) (List.range (threadCount i)) futures := by
              refine (mapM_option hfutures).imp fun k o ho => ?_
              obtain ⟨os, hos, hmem⟩ := svc.mem_of_future ho
              exact interleave_outcome (R := fun _ => anyStep) (G := fun _ => anyStep)
                (fun _ _ _ _ _ _ => trivial) (fun w => worker_length (t := w) _ _) hos os rfl _ hmem
            rw [futureResults_length hlengths hrs, ← List.sum_toFinset _ List.nodup_range,
              List.toFinset_range, sum_share _ (Nat.lt_of_succ_lt hT)]
  · simp only [if_neg hT, hcollect, hcollects, if_true] at hrun ⊢
    obtain ⟨rs, s₂, hrs, hreport⟩ := run_bind_inv hrun
    rw [run_ofExcept] at hreport
    obtain ⟨hrs, hall⟩ := run_range_accept _ _ hrs
    refine ⟨rs, by rw [hrs], ?_, hall, (Prod.mk.inj hreport).1⟩
    have hlength := (Ends.range (svc.executeSingle i t true i.qps.toInt) (totalTimes i) 0 s₁).run
    exact hlength rs (by rw [hrs])

/-- A repeated run passes if each of its records is expected, each expected one is a record,
and each occurs as often as it may. -/
theorem repeated_judged {σ : Type} {lib : JavaLib} (hlib : lib.ReadsIntervals) (h : Host σ)
    {result : Json} (hN : 2 ≤ i.times) (hcollect : i.collectBy = some "stat_count")
    (hok : (svc.execute i t s).1 = .ok result) (es : List Expected) :
    ∃ rs, svc.results i t s = .ok rs ∧ (∀ r ∈ rs, r.renderResult.isSome) ∧
      (CaseValidator.validate h lib (expectation es) result = .ok true ↔
        (∀ r ∈ texts rs, ∃ e ∈ es, e.record = r) ∧
        ∀ e ∈ es, e.record ∈ texts rs ∧ e.min ≤ (texts rs).count e.record ∧
          (texts rs).count e.record ≤ e.max) := by
  unfold execute at hok
  rw [if_neg (not_le_one hN)] at hok
  cases hrun : svc.executeForTimes i t s with
  | mk out s₁ =>
      rw [hrun] at hok
      cases out with
      | error e => cases hok
      | ok report =>
          obtain rfl := (run_finish svc t report s₁).2.2 result hok
          obtain ⟨rs, hrs, hlen, haccept, hreport⟩ := results_of_report hcollect rfl hrun
          have hall : ∀ r ∈ rs, r.renderResult.isSome := by
            intro r hr
            have hr' := haccept r hr
            unfold accept at hr'
            split at hr'
            · cases hr'
            · rename_i hgroups
              rw [← Option.ne_none_iff_isSome]
              exact fun hnone => hgroups ⟨by decide, by decide, hnone⟩
          obtain ⟨result', hreport', hreports⟩ := report_reports (Or.inr (Or.inr rfl)) hall
          obtain rfl := Except.ok.inj (hreport.symm.trans hreport')
          refine ⟨rs, hrs, hall, CaseValidator.validate_counts hlib h es hreports ?_⟩
          rw [length_texts hall, hlen]
          unfold totalTimes
          have hmax := Int32.toInt_lt i.times
          omega

/-- A single execution is not counted: its result is its record. -/
theorem single_judged {σ : Type} {lib : JavaLib} (hlib : lib.ReadsIntervals) (h : Host σ)
    {result : Json} (hone : i.times ≤ 1) (hok : (svc.execute i t s).1 = .ok result)
    (es : List Expected) : ∃ record, result = ofString record ∧
      (CaseValidator.validate h lib (expectation es) result = .ok true ↔
        es = [] ∧ record.getD "" = "") := by
  unfold execute at hok
  rw [if_pos hone] at hok
  cases hrun : (svc.executeOnce i t).run s with
  | mk out s' =>
      rw [hrun] at hok
      simp only at hok
      rw [hok] at hrun
      obtain ⟨r, s₁, -, hrest⟩ := run_bind_inv hrun
      obtain ⟨u, s₂, -, hresult⟩ := run_bind_inv hrest
      obtain rfl := Except.ok.inj (Prod.mk.inj hresult).1
      exact ⟨r.renderResult, rfl, CaseValidator.validate_single hlib h es r.renderResult⟩

/-- **Judging a run**: what the validation of a run with `stat_count` says about its records. -/
theorem validate_run_iff {σ : Type} {lib : JavaLib} (hlib : lib.ReadsIntervals) (h : Host σ)
    {result : Json} (hcollect : i.collectBy = some "stat_count")
    (hok : (svc.execute i t s).1 = .ok result) (es : List Expected) :
    (2 ≤ i.times → ∃ rs, svc.results i t s = .ok rs ∧ (∀ r ∈ rs, r.renderResult.isSome) ∧
      (CaseValidator.validate h lib (expectation es) result = .ok true ↔
        (∀ r ∈ texts rs, ∃ e ∈ es, e.record = r) ∧
        ∀ e ∈ es, e.record ∈ texts rs ∧ e.min ≤ (texts rs).count e.record ∧
          (texts rs).count e.record ≤ e.max)) ∧
    (i.times ≤ 1 → ∃ record, result = ofString record ∧
      (CaseValidator.validate h lib (expectation es) result = .ok true ↔
        es = [] ∧ record.getD "" = "")) :=
  ⟨fun hN => repeated_judged hlib h hN hcollect hok es, fun hone => single_judged hlib h hone hok es⟩

/-! ### Two executions -/

/-- A run without response headers returns its report. -/
theorem finish_returns {result : Json} (hs : responseHeadersOf s = some ∅) :
    ((svc.finish t result).run s).1 = .ok result := by
  obtain ⟨s₁, hs₁⟩ : ∃ s₁, s₁ =
    s.withCtx (s.ctx.setResult t { s.ctx.getResult t with result := result }) := ⟨_, rfl⟩
  have hstore : (storeResult t result).run s = (.ok (), s₁) := by
    rw [hs₁]
    rfl
  have hnames : (s₁.nodes.head?.bind fun node => node.responseHeaders.map AList.keys) = some [] := by
    have hnodes : s₁.nodes = s.nodes := by rw [hs₁]; rfl
    unfold responseHeadersOf at hs
    obtain ⟨node, hnode, hheaders⟩ := Option.bind_eq_some_iff.mp hs
    rw [hnodes, hnode, Option.bind_some, hheaders]
    rfl
  have hheaders : (svc.renderResponseHeaders t).run s₁ = (.ok (), s₁) := by
    unfold renderResponseHeaders
    rw [run_bind_ok (run_read _ _), hnames]
    rfl
  unfold finish
  rw [run_bind_ok hstore, run_bind_ok hheaders]
  rfl

/-- A library that knows the regular expressions that are plain texts, and decimal digits. -/
def plainLib : JavaLib where
  «matches» regex s := some (decide (s = regex))
  replaceAll _ _ s := .ok s
  parseDouble s := if s ≠ "" ∧ s.toList.all Char.isDigit then
    some (.finite (Nat.ofDigitChars 10 s.toList 0 : ℕ)) else none

theorem plainLib_reads : plainLib.ReadsIntervals := by
  have hparse : ∀ n : ℕ, plainLib.parseDouble (toString n) = some (.finite n) := by
    intro n
    have hlist := CaseValidator.toList_toString n
    have hne : toString n ≠ "" := by
      intro hempty
      refine Decimals.toString_ne_nil n ?_
      rw [hempty]
      rfl
    have hdigits : (toString n).toList.all Char.isDigit = true :=
      List.all_eq_true.mpr (Decimals.isDigit_toString n)
    show (if _ then _ else _) = _
    rw [if_pos ⟨hne, hdigits⟩, hlist, Nat.ofDigitChars_ten_toDigits]
  refine ⟨fun e s => rfl, fun n _ => hparse n, fun n hn => ⟨.finite n, hparse n, ?_⟩⟩
  rw [CaseValidator.finite_le_finite, decide_eq_true (le_of_lt hn)]

/-- Two executions, which leave the same record. -/
def twiceInstruction : Instruction where
  trace := some [{}]
  times := 2
  collectBy := some "stat_count"
  traceNodeTmpl := some "ok"

def twiceState : St Unit where
  nodes := twiceInstruction.nodes
  ctx := .new 7
  world := { rand := () }
  request := twiceInstruction

theorem twice_returns :
    ∃ result, (sampleService.execute twiceInstruction 7 twiceState).1 = .ok result := by
  have hrender : Renders Host.bare true "ok" := fun v r _ => ⟨"ok", r, rfl⟩
  have hi : ¬ twiceInstruction.times ≤ 1 := by decide
  have hpool : PoolCompletes sampleService twiceInstruction twiceState := fun hT =>
    absurd hT (by decide)
  obtain ⟨result, s', rs, hrun, -⟩ :=
    executeForTimes_records (t := 7) rfl hrender hpool rfl (Or.inr (Or.inr rfl))
  have hkeeps : KeepsResponse twiceState (sampleService.executeForTimes twiceInstruction 7 twiceState).2 :=
    executeForTimes_keepsResponse hi twiceState
  rw [hrun] at hkeeps
  refine ⟨result, ?_⟩
  unfold execute
  rw [if_neg hi, hrun]
  exact finish_returns hkeeps

/-- One record is expected twice, the other one at most once. -/
def twiceExpected : List Expected := [⟨"ok", 2, 2⟩, ⟨"never", 0, 1⟩]

theorem validate_run_iff_sample :
    ∃ result, (sampleService.execute twiceInstruction 7 twiceState).1 = .ok result ∧
    (2 ≤ twiceInstruction.times → ∃ rs, sampleService.results twiceInstruction 7 twiceState = .ok rs ∧
      (∀ r ∈ rs, r.renderResult.isSome) ∧
      (CaseValidator.validate Host.bare plainLib (expectation twiceExpected) result = .ok true ↔
        (∀ r ∈ texts rs, ∃ e ∈ twiceExpected, e.record = r) ∧
        ∀ e ∈ twiceExpected, e.record ∈ texts rs ∧ e.min ≤ (texts rs).count e.record ∧
          (texts rs).count e.record ≤ e.max)) ∧
    (twiceInstruction.times ≤ 1 → ∃ record, result = ofString record ∧
      (CaseValidator.validate Host.bare plainLib (expectation twiceExpected) result = .ok true ↔
        twiceExpected = [] ∧ record.getD "" = "")) := by
  obtain ⟨result, hok⟩ := twice_returns
  exact ⟨result, hok, validate_run_iff plainLib_reads Host.bare rfl hok twiceExpected⟩

/-- The other one never occurs, which its interval allows, and the validation fails. -/
theorem validate_run_missing :
    ¬ ∀ (lib : JavaLib) (σ : Type) (h : Host σ) (ρ : Type) (svc : Service ρ) (i : Instruction)
      (t : ThreadId) (s : St ρ) (result : Json) (rs : List Result) (es : List Expected),
      lib.ReadsIntervals → 2 ≤ i.times → i.collectBy = some "stat_count" →
      (∀ e ∈ es, e.min ≤ e.max) → (svc.execute i t s).1 = .ok result → svc.results i t s = .ok rs →
      (CaseValidator.validate h lib (expectation es) result = .ok true ↔
        (∀ r ∈ texts rs, ∃ e ∈ es, e.record = r) ∧
        ∀ e ∈ es, e.min ≤ (texts rs).count e.record ∧ (texts rs).count e.record ≤ e.max) := by
  intro h
  obtain ⟨result, hok⟩ := twice_returns
  obtain ⟨rs, hrs, -, hjudged⟩ := repeated_judged plainLib_reads Host.bare (by decide) rfl hok twiceExpected
  have hrecords : (sampleService.results twiceInstruction 7 twiceState).toOption.map texts =
      some ["ok", "ok"] := by decide +kernel
  rw [hrs] at hrecords
  have htexts : texts rs = ["ok", "ok"] := Option.some.inj hrecords
  have hclaim := h plainLib Unit Host.bare Unit sampleService twiceInstruction 7 twiceState result rs
    twiceExpected plainLib_reads (by decide) rfl (by decide) hok hrs
  rw [htexts] at hclaim hjudged
  have hpass := hjudged.mp (hclaim.mpr (by decide))
  revert hpass
  decide

end Service

end Powerful
