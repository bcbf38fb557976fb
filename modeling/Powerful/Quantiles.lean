import Mathlib
import Powerful.Workers

/-! # Quantiles of the delays

With `collectBy = stat_<q>` the report of a run gives, for every record, a quantile of the
delays of the executions that left it.  The rank `n * q / 1000` is rounded down, so the
quantile is not reached where the rounding matters (`quantile_below`).  What the value is all
the same says `report_quantiles`: one of the samples, with at least the rounded number of
samples below it, and monotone in `q`.

The first section is about the elements of a sorted list. -/

namespace Powerful

/-! ### Sorted lists -/

namespace Sorted
variable {α : Type} [LinearOrder α] {l : List α} {i j : ℕ} {d : α}

theorem getD_mem (hi : i < l.length) : (l.mergeSort (· ≤ ·)).getD i d ∈ l := by
  have hi' : i < (l.mergeSort (· ≤ ·)).length := by rw [List.length_mergeSort]; exact hi
  rw [List.getD_eq_getElem _ _ hi']
  exact List.mem_mergeSort.mp (List.getElem_mem hi')

theorem getD_mono (hij : i ≤ j) (hj : j < l.length) :
    (l.mergeSort (· ≤ ·)).getD i d ≤ (l.mergeSort (· ≤ ·)).getD j d := by
  have hj' : j < (l.mergeSort (· ≤ ·)).length := by rw [List.length_mergeSort]; exact hj
  have hi' : i < (l.mergeSort (· ≤ ·)).length := by omega
  rw [List.getD_eq_getElem _ _ hi', List.getD_eq_getElem _ _ hj']
  exact List.sortedLE_mergeSort.getElem_le_getElem_of_le hij

/-- The element at index `i` has `i + 1` elements up to it. -/
theorem lt_countP (hi : i < l.length) :
    i < l.countP (fun x => x ≤ (l.mergeSort (· ≤ ·)).getD i d) := by
  have hlen : (l.mergeSort (· ≤ ·)).length = l.length := List.length_mergeSort _
  rw [← (List.mergeSort_perm l (· ≤ ·)).countP_eq]
  have htake : ((l.mergeSort (· ≤ ·)).take (i + 1)).countP
      (fun x => x ≤ (l.mergeSort (· ≤ ·)).getD i d) = i + 1 := by
    have hall : ∀ x ∈ (l.mergeSort (· ≤ ·)).take (i + 1),
        decide (x ≤ (l.mergeSort (· ≤ ·)).getD i d) = true := by
      intro x hx
      obtain ⟨k, hk, rfl⟩ := List.mem_iff_getElem.mp hx
      rw [List.length_take, hlen] at hk
      rw [List.getElem_take, ← List.getD_eq_getElem _ d (by omega)]
      exact decide_eq_true (getD_mono (by omega) hi)
    rw [List.countP_eq_length.mpr hall, List.length_take, hlen]
    omega
  have hle := (List.take_sublist (i + 1) (l.mergeSort (· ≤ ·))).countP_le
    (p := fun x => decide (x ≤ (l.mergeSort (· ≤ ·)).getD i d))
  omega

end Sorted

/-! ### The index -/

/-- The clamps keep the index within bounds, whatever the quantile. -/
theorem quantileIndex_bounds {n : ℕ} (hn : 0 < n) (q : ℤ) :
    0 ≤ quantileIndex n q ∧ quantileIndex n q < n := by
  unfold quantileIndex
  omega

theorem quantileIndex_eq {n : ℕ} {q : ℤ} (hn : n < 2 ^ 31) (h0 : 0 ≤ q) (h1 : q ≤ 1000) :
    quantileIndex n q = min (max (n * q / 1000 - 1) 0) (n - 1) := by
  have hle : (n * q : ℤ) ≤ n * 1000 := by
    apply mul_le_mul_of_nonneg_left h1
    omega
  have hnn : (0 : ℤ) ≤ n * q := mul_nonneg (by omega) h0
  have hrank : (Int32.ofInt ((n * q).tdiv 1000)).toInt = (n * q / 1000 : ℤ) := by
    rw [Int.tdiv_eq_ediv_of_nonneg hnn]
    exact Int32.toInt_ofInt_of_le (by omega) (by omega)
  have hone : (1 : Int32).toInt = 1 := by decide
  unfold quantileIndex
  rw [Int32.toInt_sub, hrank, hone, Int.bmod_eq_of_le (by omega) (by omega)]

theorem quantileIndex_mono {n : ℕ} {q q' : ℤ} (hn : n < 2 ^ 31) (h0 : 0 ≤ q) (hq : q ≤ q')
    (h1 : q' ≤ 1000) : quantileIndex n q ≤ quantileIndex n q' := by
  rw [quantileIndex_eq hn h0 (by omega), quantileIndex_eq hn (by omega) h1]
  have hle : (n * q : ℤ) ≤ n * q' := by
    apply mul_le_mul_of_nonneg_left hq
    omega
  omega

/-! ### The value -/

/-- The delays of the executions that left a record. -/
def samples (rs : List Result) (record : String) : List ℚ :=
  (rs.filter (fun r => r.renderResult = some record)).map Result.delayMillis

/-- The value for a group. -/
def quantileValue (delays : List ℚ) (q : ℤ) : ℚ :=
  (delays.mergeSort (· ≤ ·)).getD (quantileIndex delays.length q).toNat 0

theorem statValue_eq {stat : String} {q : ℤ} (hstat : parseInt stat = .ok q) (data : List Result) :
    statValue stat data = .ok (.dbl (quantileValue (data.map Result.delayMillis) q)) := by
  have hcount : stat ≠ "count" := by
    rintro rfl
    have hfail : parseInt "count" = .error (.numberFormat "For input string: \"count\"") := rfl
    rw [hfail] at hstat
    cases hstat
  have havg : stat ≠ "avg" := by
    rintro rfl
    have hfail : parseInt "avg" = .error (.numberFormat "For input string: \"avg\"") := rfl
    rw [hfail] at hstat
    cases hstat
  unfold statValue quantileValue
  simp only [if_neg hcount, if_neg havg, hstat, List.length_map]

theorem toNat_quantileIndex_lt {n : ℕ} (hn : 0 < n) (q : ℤ) : (quantileIndex n q).toNat < n := by
  have hbounds := quantileIndex_bounds hn q
  omega

theorem quantileValue_mem {delays : List ℚ} (hne : 0 < delays.length) (q : ℤ) :
    quantileValue delays q ∈ delays := Sorted.getD_mem (toNat_quantileIndex_lt hne q)

theorem le_countP_quantileValue {delays : List ℚ} {q : ℤ} (hne : 0 < delays.length)
    (hlen : delays.length < 2 ^ 31) (h0 : 0 ≤ q) (h1 : q ≤ 1000) :
    delays.length * q / 1000 ≤ (delays.countP (fun x => x ≤ quantileValue delays q) : ℤ) := by
  have hcount := Sorted.lt_countP (d := (0 : ℚ)) (toNat_quantileIndex_lt hne q)
  have hindex := quantileIndex_eq hlen h0 h1
  have hle : (delays.length * q : ℤ) ≤ delays.length * 1000 := by
    apply mul_le_mul_of_nonneg_left h1
    omega
  unfold quantileValue
  omega

theorem quantileValue_mono {delays : List ℚ} {q q' : ℤ} (hne : 0 < delays.length)
    (hlen : delays.length < 2 ^ 31) (h0 : 0 ≤ q) (hq : q ≤ q') (h1 : q' ≤ 1000) :
    quantileValue delays q ≤ quantileValue delays q' := by
  apply Sorted.getD_mono _ (toNat_quantileIndex_lt hne q')
  have hmono := quantileIndex_mono hlen h0 hq h1
  omega

/-! ### The report -/

theorem statFields_quantile {stat : String} {q : ℤ} (hstat : parseInt stat = .ok q)
    (rs : List Result) (ks : List String) :
    statFields stat rs ks = .ok (ks.map fun k => (k, .dbl (quantileValue (samples rs k) q))) := by
  induction ks with
  | nil => rfl
  | cons k ks ih =>
      rw [statFields, statValue_eq hstat, ih]
      rfl

theorem report_quantile {stat : String} {q : ℤ} (hstat : parseInt stat = .ok q) (rs : List Result) :
    report ("stat_" ++ stat) rs = .ok (.obj ((treeKeys (rs.filterMap Result.renderResult)).map
      fun k => (k, .dbl (quantileValue (samples rs k) q)))) := by
  have hchars : ("stat_" ++ stat).toList = 's' :: 't' :: 'a' :: 't' :: '_' :: stat.toList := by
    rw [String.toList_append]
    rfl
  have hlist : "stat_" ++ stat ≠ "list" := by
    intro h
    rw [h] at hchars
    cases hchars
  have hstring : "stat_" ++ stat ≠ "string" := by
    intro h
    rw [h] at hchars
    simp at hchars
  have hsub : substring ("stat_" ++ stat) 5 = stat := by
    unfold substring
    rw [hchars]
    exact String.ofList_toList
  unfold report
  rw [if_neg hlist, if_neg hstring, hsub, statFields_quantile hstat]
  rfl

theorem length_samples_le (rs : List Result) (record : String) :
    (samples rs record).length ≤ rs.length := by
  unfold samples
  rw [List.length_map]
  exact List.length_filter_le _ _

theorem mem_treeKeys {k : String} {ks : List String} : k ∈ treeKeys ks ↔ k ∈ ks := by
  unfold treeKeys
  rw [List.mem_mergeSort, List.mem_dedup]

theorem samples_pos {rs : List Result} {record : String}
    (h : record ∈ rs.filterMap Result.renderResult) : 0 < (samples rs record).length := by
  obtain ⟨r, hr, hrecord⟩ := List.mem_filterMap.mp h
  unfold samples
  rw [List.length_map]
  exact List.length_pos_of_mem (List.mem_filter.mpr ⟨hr, by simpa using hrecord⟩)

/-- **Quantiles**: for every record, the report on `stat_<q>` has one of its samples that is not
below the rank, rounded down, and that grows with `q`.  The index is within bounds for any
quantile. -/
theorem report_quantiles {stat : String} {q : ℤ} {rs : List Result} (hstat : parseInt stat = .ok q)
    (h0 : 0 ≤ q) (h1 : q ≤ 1000) (hlen : rs.length < 2 ^ 31) :
    (∃ value : String → ℚ,
      report ("stat_" ++ stat) rs = .ok (.obj ((treeKeys (rs.filterMap Result.renderResult)).map
        fun k => (k, .dbl (value k)))) ∧
      ∀ record ∈ rs.filterMap Result.renderResult, value record ∈ samples rs record ∧
        (samples rs record).length * q / 1000 ≤
          ((samples rs record).countP (fun x => x ≤ value record) : ℤ) ∧
        ∀ (stat' : String) (q' : ℤ), parseInt stat' = .ok q' → q ≤ q' → q' ≤ 1000 →
          ∃ fields y, report ("stat_" ++ stat') rs = .ok (.obj fields) ∧
            (record, .dbl y) ∈ fields ∧ value record ≤ y) ∧
      ∀ (n : ℕ) (q : ℤ), 0 < n → 0 ≤ quantileIndex n q ∧ quantileIndex n q < n := by
  refine ⟨⟨fun k => quantileValue (samples rs k) q, report_quantile hstat rs, ?_⟩,
    fun n q hn => quantileIndex_bounds hn q⟩
  intro record hrecord
  have hpos := samples_pos hrecord
  have hshort : (samples rs record).length < 2 ^ 31 :=
    lt_of_le_of_lt (length_samples_le rs record) hlen
  refine ⟨quantileValue_mem hpos q, le_countP_quantileValue hpos hshort h0 h1, ?_⟩
  intro stat' q' hstat' hq hq'
  refine ⟨_, quantileValue (samples rs record) q', report_quantile hstat' rs, ?_,
    quantileValue_mono hpos hshort h0 hq hq'⟩
  exact List.mem_map.mpr ⟨record, mem_treeKeys.mpr hrecord, rfl⟩

/-- Three executions that took one, two and three milliseconds. -/
def threeResults : List Result := [1, 2, 3].map fun d => ⟨d, some "ok", none, d⟩

theorem report_quantiles_sample :
    (∃ value : String → ℚ,
      report ("stat_" ++ "500") threeResults =
        .ok (.obj ((treeKeys (threeResults.filterMap Result.renderResult)).map
          fun k => (k, .dbl (value k)))) ∧
      ∀ record ∈ threeResults.filterMap Result.renderResult,
        value record ∈ samples threeResults record ∧
        (samples threeResults record).length * (500 : ℤ) / 1000 ≤
          ((samples threeResults record).countP (fun x => x ≤ value record) : ℤ) ∧
        ∀ (stat' : String) (q' : ℤ), parseInt stat' = .ok q' → 500 ≤ q' → q' ≤ 1000 →
          ∃ fields y, report ("stat_" ++ stat') threeResults = .ok (.obj fields) ∧
            (record, .dbl y) ∈ fields ∧ value record ≤ y) ∧
      ∀ (n : ℕ) (q : ℤ), 0 < n → 0 ≤ quantileIndex n q ∧ quantileIndex n q < n :=
  report_quantiles rfl (by decide) (by decide) (by decide)

/-- The median of three delays is the least of them: one of the three is not above it, where
one and a half are asked for. -/
theorem quantile_below :
    ¬ ∀ (stat : String) (q : ℤ) (data : List Result) (x : ℚ), parseInt stat = .ok q → 0 ≤ q →
      q ≤ 1000 → data ≠ [] → statValue stat data = .ok (.dbl x) →
      (data.length * q / 1000 : ℚ) ≤ (data.map Result.delayMillis).countP (fun d => d ≤ x) := by
  intro h
  have hparse : parseInt "500" = .ok 500 := rfl
  have hsorted : ([1, 2, 3] : List ℚ).mergeSort (· ≤ ·) = [1, 2, 3] :=
    List.mergeSort_of_pairwise (by decide)
  have hvalue : quantileValue (threeResults.map Result.delayMillis) 500 = 1 := by
    show (([1, 2, 3] : List ℚ).mergeSort (· ≤ ·)).getD (quantileIndex 3 500).toNat 0 = 1
    rw [hsorted]
    rfl
  have hmedian := h "500" 500 threeResults 1 hparse (by decide) (by decide) (by decide)
    (by rw [statValue_eq hparse, hvalue])
  revert hmedian
  decide +kernel

end Powerful
