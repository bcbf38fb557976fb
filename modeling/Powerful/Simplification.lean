import Mathlib
import Powerful.SimplifiedNode

/-! # The nodes of the compact form, and the instruction behind it

Each node of a trace becomes one object of the compact form.  `getSimplifiedNode_trace` says that
this object holds the fields in which the node differs from a new `PowerTraceNode`, although the
code compares it with a node some of whose maps are null, and that the objects are read back as
the nodes.

`getSimplifiedNode` works on the instruction it is given, without its trace while the settings are
compared.  `getSimplifiedNode_keeps_iff` says for which instructions the trace is set back, whether
the method returns or throws. -/

namespace Powerful

variable {ρ : Type}

/-! ### The nodes -/

theorem ofHeaders_inhabited {m : Headers} (hm : m.entries ≠ []) : ofHeaders (some m) ≠ .obj [] := by
  intro h
  exact hm (List.map_eq_nil_iff.mp (Json.obj.inj h))

/-- A map differs from the one it is compared with if and only if it differs from the empty map. -/
theorem baseMap_ne_iff (m : Headers) :
    some (ofHeaders (if m.entries = [] then some ∅ else none)) ≠ some (ofHeaders (some m)) ↔
      some (ofHeaders (some ∅)) ≠ some (ofHeaders (some m)) := by
  by_cases hm : m.entries = []
  · rw [if_pos hm]
  · rw [if_neg hm]
    have hempty : ofHeaders (some ∅) ≠ ofHeaders (some m) := fun h => ofHeaders_inhabited hm h.symm
    constructor
    · exact fun _ h => hempty (Option.some.inj h)
    · intro _ h
      cases h

/-- The fields that differ from those of the node it is compared with are the fields that differ
from those of a new node. -/
theorem differing_baseNode {n base : PowerTraceNode} (hbase : baseNode n = .ok base) :
    Json.differing base.fields n.fields = Json.differing ({} : PowerTraceNode).fields n.fields := by
  unfold baseNode at hbase
  cases hq : n.queries with
  | none =>
      rw [hq] at hbase
      cases hbase
  | some queries =>
      cases hh : n.headers with
      | none =>
          rw [hq, hh] at hbase
          cases hbase
      | some headers =>
          cases hr : n.responseHeaders with
          | none =>
              rw [hq, hh, hr] at hbase
              cases hbase
          | some responseHeaders =>
              rw [hq, hh, hr] at hbase
              obtain rfl := Except.ok.inj hbase
              refine List.filter_congr fun f hf => ?_
              rw [decide_eq_decide]
              unfold PowerTraceNode.fields at hf
              simp only [List.mem_cons, List.not_mem_nil, or_false] at hf
              rcases hf with rfl | rfl | rfl | rfl | rfl | rfl | rfl | rfl | rfl | rfl
              · exact Iff.rfl
              · exact Iff.rfl
              · exact Iff.rfl
              · exact Iff.rfl
              · rw [hh]
                exact baseMap_ne_iff headers
              · rw [hr]
                exact baseMap_ne_iff responseHeaders
              · rw [hq]
                exact baseMap_ne_iff queries
              · exact Iff.rfl
              · exact Iff.rfl
              · exact Iff.rfl

/-- The fields in which a node differs from a new one. -/
def PowerTraceNode.changes (n : PowerTraceNode) : Json :=
  .obj (Json.differing ({} : PowerTraceNode).fields n.fields)

/-- One node. -/
theorem simplify_changes (arrays : ArrayDiff) {n : PowerTraceNode} (hn : n.HasMaps) :
    ∃ base, baseNode n = .ok base ∧ simplify arrays base.toJson n.toJson = .ok n.changes ∧
      ∀ (h : Host ρ) (strict : Bool), decodeNode h strict n.changes = .ok n := by
  obtain ⟨base, hbase, hsimp, hdec⟩ := simplify_node (ρ := ρ) arrays hn
  rw [differing_baseNode hbase] at hsimp hdec
  exact ⟨base, hbase, hsimp, hdec⟩

theorem simplifyNodes_changes (arrays : ArrayDiff) : ∀ {ns : List PowerTraceNode},
    (∀ n ∈ ns, n.HasMaps) → simplifyNodes arrays ns = .ok (ns.map PowerTraceNode.changes)
  | [], _ => rfl
  | n :: ns, hns => by
      obtain ⟨base, hbase, hsimp, -⟩ := simplify_changes (ρ := Unit) arrays (hns n List.mem_cons_self)
      have ih := simplifyNodes_changes arrays fun m hm => hns m (List.mem_cons_of_mem n hm)
      unfold simplifyNodes
      rw [hbase, ih]
      simp only [bind, Except.bind, hsimp, List.map_cons]

theorem decodeNodes_changes (arrays : ArrayDiff) (h : Host ρ) (strict : Bool) :
    ∀ {ns : List PowerTraceNode}, (∀ n ∈ ns, n.HasMaps) →
      decodeNodes h strict (ns.map PowerTraceNode.changes) = .ok ns
  | [], _ => rfl
  | n :: ns, hns => by
      obtain ⟨base, -, -, hdec⟩ := simplify_changes (ρ := ρ) arrays (hns n List.mem_cons_self)
      have ih := decodeNodes_changes arrays h strict fun m hm => hns m (List.mem_cons_of_mem n hm)
      rw [List.map_cons]
      unfold decodeNodes
      rw [hdec h strict, ih]
      rfl

theorem simplifyInPlace_changes (h : Host ρ) (arrays : ArrayDiff) {i : Instruction}
    {ns : List PowerTraceNode} (hcase : i.caseInfo = none) (ht : i.trace = some ns)
    (hns : ∀ n ∈ ns, n.HasMaps) (hrr : i.rr = some ∅) :
    (simplifyInPlace h arrays i).1 = .ok (.obj (Json.putField "trace"
      (.arr (ns.map PowerTraceNode.changes))
      (Json.differing (comparedFields (Instruction.new h)) (comparedFields i)))) := by
  have hbase := toJson_compared (show (Instruction.new h).caseInfo = none from rfl)
  have hsimp := simplify_instruction arrays (Instruction.new h) i rfl hrr
  unfold simplifyInPlace
  simp only [ht, simplifyNodes_changes arrays hns, hbase, toJson_compared hcase, hsimp, putTrace]

/-- **The trace of the compact form**: one object for each node, in order, with the fields in which
the node differs from a new one; the objects are read as the nodes. -/
theorem getSimplifiedNode_trace (h : Host ρ) (arrays : ArrayDiff) {i : Instruction}
    {ns : List PowerTraceNode} (ht : i.trace = some ns) (hns : ∀ n ∈ ns, n.HasMaps)
    (hrr : i.rr = some ∅) :
    ∃ fs, (getSimplifiedNode h arrays i).1 = .ok (.obj fs) ∧
      fs.lookup "trace" = some (.arr (ns.map PowerTraceNode.changes)) ∧
      ∀ (receiver : Host ρ) (strict : Bool),
        decodeNodes receiver strict (ns.map PowerTraceNode.changes) = .ok ns := by
  have hdoc := simplifyInPlace_changes h arrays (i := { i with caseInfo := none }) rfl ht hns hrr
  rw [← getSimplifiedNode_fst] at hdoc
  exact ⟨_, hdoc, Json.lookup_putField_self _ _ _,
    fun receiver strict => decodeNodes_changes arrays receiver strict hns⟩

/-- A trace with a null setting and a header. -/
theorem getSimplifiedNode_trace_sample :
    ∃ fs, (getSimplifiedNode Host.bare noArrays { callInstruction "b:8080" with
        trace := some [{}, { call := none, headers := some (AList.singleton "color" none) }] }).1 =
          .ok (.obj fs) ∧
      fs.lookup "trace" = some (.arr [.obj [],
        .obj [("call", .null), ("headers", .obj [("color", .null)])]]) ∧
      ∀ (receiver : Host Unit) (strict : Bool), decodeNodes receiver strict [.obj [],
        .obj [("call", .null), ("headers", .obj [("color", .null)])]] =
          .ok [{}, { call := none, headers := some (AList.singleton "color" none) }] := by
  refine getSimplifiedNode_trace Host.bare noArrays (i := { callInstruction "b:8080" with
    trace := some [{}, { call := none, headers := some (AList.singleton "color" none) }] }) rfl ?_ rfl
  intro n hn
  rcases List.mem_cons.mp hn with rfl | hn
  · exact ⟨rfl, rfl, rfl⟩
  · rw [List.mem_singleton.mp hn]
    exact ⟨rfl, rfl, rfl⟩

/-! ### The instruction behind the comparison -/

/-- A node without one of its maps stops the comparison. -/
theorem simplifyNodes_error (arrays : ArrayDiff) : ∀ {ns : List PowerTraceNode},
    ¬ (∀ n ∈ ns, n.HasMaps) → ∃ e, simplifyNodes arrays ns = .error e
  | [], h => absurd (fun n hn => by cases hn) h
  | n :: ns, h => by
      unfold simplifyNodes
      cases hbase : baseNode n with
      | error e => exact ⟨e, rfl⟩
      | ok base =>
          have hn : n.HasMaps := by
            unfold baseNode at hbase
            split at hbase
            · rename_i hq hh hr
              exact ⟨by rw [hq]; rfl, by rw [hh]; rfl, by rw [hr]; rfl⟩
            · cases hbase
          obtain ⟨base', hbase', hsimp, -⟩ := simplify_changes (ρ := Unit) arrays hn
          obtain rfl := Except.ok.inj (hbase.symm.trans hbase')
          have hns : ¬ ∀ n ∈ ns, n.HasMaps := fun hns => h (List.forall_mem_cons.mpr ⟨hn, hns⟩)
          obtain ⟨e, he⟩ := simplifyNodes_error arrays hns
          refine ⟨e, ?_⟩
          simp only [bind, Except.bind, hsimp, he]

/-- Settings without entries of `rr` are compared without an exception. -/
theorem simplify_settings (arrays : ArrayDiff) (i j : Instruction) (hi : i.rr = some ∅)
    (hj : j.rr = none ∨ j.rr = some ∅) :
    ∃ result, simplify arrays (.obj (comparedFields i)) (.obj (comparedFields j)) = .ok result := by
  have hplain : Json.Plain (ofRr i.rr) (ofRr j.rr) := by
    rcases hj with hj | hj
    · rw [hi, hj]
      refine Or.inr ⟨fun fs gs h => ?_, fun xs ys h => ?_⟩
      · cases h.2
      · cases h.2
    · rw [hi, hj]
      exact Or.inl rfl
  have hflat : Json.Flat (comparedFields i) (comparedFields j) :=
    List.rel_append (flat_settings i j) (.cons ⟨rfl, hplain⟩ .nil)
  unfold simplify
  rw [Json.replay arrays hflat (comparedFields_nodup j)]
  exact ⟨_, rfl⟩

/-- The comparison of an instruction leaves it as it was if and only if it is not reached, or there
is no entry in `rr`. -/
theorem simplifyInPlace_keeps_iff (h : Host ρ) (arrays : ArrayDiff) {i : Instruction}
    (hcase : i.caseInfo = none) :
    (simplifyInPlace h arrays i).2 = i ↔
      i.trace = none ∨ (∃ n ∈ i.nodes, ¬ n.HasMaps) ∨ i.rr = none ∨ i.rr = some ∅ := by
  have hbase := toJson_compared (show (Instruction.new h).caseInfo = none from rfl)
  cases ht : i.trace with
  | none =>
      unfold simplifyInPlace
      rw [ht]
      exact ⟨fun _ => Or.inl rfl, fun _ => rfl⟩
  | some ns =>
      have hnodes : i.nodes = ns := by rw [Instruction.nodes, ht, Option.getD_some]
      rw [hnodes]
      by_cases hns : ∀ n ∈ ns, n.HasMaps
      · by_cases hrr : i.rr = none ∨ i.rr = some ∅
        · obtain ⟨result, hsimp⟩ := simplify_settings arrays (Instruction.new h) i rfl hrr
          unfold simplifyInPlace
          simp only [ht, simplifyNodes_changes arrays hns, hbase, toJson_compared hcase, hsimp]
          exact ⟨fun _ => Or.inr (Or.inr hrr), fun _ => trivial⟩
        · rw [not_or] at hrr
          obtain ⟨rr, hi⟩ := Option.ne_none_iff_exists'.mp hrr.1
          have hne : rr ≠ ∅ := fun he => hrr.2 (he ▸ hi)
          rw [simplifyInPlace_refused h arrays hcase ht hns hi hne]
          constructor
          · intro hkeeps
            have htrace := congrArg Instruction.trace hkeeps
            rw [ht] at htrace
            cases htrace
          · rintro (hnone | ⟨n, hn, hmaps⟩ | hrr')
            · cases hnone
            · exact absurd (hns n hn) hmaps
            · exact absurd hrr' (not_or.mpr hrr)
      · obtain ⟨e, he⟩ := simplifyNodes_error arrays hns
        unfold simplifyInPlace
        simp only [ht, he]
        push Not at hns
        exact ⟨fun _ => Or.inr (Or.inl hns), fun _ => trivial⟩

/-- **The argument**: it is left as it was if and only if it is a case, the comparison of its
settings is not reached, or it has no entry in `rr`. -/
theorem getSimplifiedNode_keeps_iff (h : Host ρ) (arrays : ArrayDiff) (i : Instruction) :
    (getSimplifiedNode h arrays i).2 = i ↔
      i.caseInfo.isSome ∨ i.trace = none ∨ (∃ n ∈ i.nodes, ¬ n.HasMaps) ∨
        i.rr = none ∨ i.rr = some ∅ := by
  unfold getSimplifiedNode
  by_cases hcase : i.caseInfo.isSome
  · rw [if_pos hcase]
    refine ⟨fun _ => Or.inl hcase, fun _ => ?_⟩
    split <;> rfl
  · rw [if_neg hcase, simplifyInPlace_keeps_iff h arrays (Option.not_isSome_iff_eq_none.mp hcase)]
    exact ⟨Or.inr, fun hor => hor.resolve_left hcase⟩

/-- With an entry in `rr` the method throws and leaves the instruction without its trace. -/
theorem getSimplifiedNode_loses_trace :
    (getSimplifiedNode Host.bare noArrays
        { callInstruction "b:8080" with rr := some (AList.singleton "times" (some [.int 2])) }).2.trace =
          none ∧
    ¬ ∀ i : Instruction, (getSimplifiedNode Host.bare noArrays i).2 = i := by
  have hlost : (getSimplifiedNode Host.bare noArrays
      { callInstruction "b:8080" with rr := some (AList.singleton "times" (some [.int 2])) }).2.trace =
        none := by rfl
  refine ⟨hlost, fun h => ?_⟩
  rw [h] at hlost
  cases hlost

end Powerful
