import Mathlib
import Powerful.Budgets
import Powerful.Http

/-! # No load amplification

Every instruction that a process sends is to be executed once, on one thread and without a
rate.  Its trace is shorter than the one received, unless `rr` replaces the trace itself by a
longer one: `getNext` keeps `rr`, so every hop replaces the trace again.  `Fits` is the
condition on a received instruction that excludes this.

`cost` counts the calls in a log, and anything else than such a call more heavily; a log with
an instruction that does not fit costs nothing.  A call costs at most the nodes of the trace
that it sends (`invoker_cost`), by induction on the depth to which calls are followed, and so
a run costs at most its executions times the nodes behind the first one.  `no_amplification`
reads the result off: if every instruction that a process of the run acts on fits, then every
call is proper, the chain of calls ends, and there are at most that many. -/

namespace Powerful

open Resumption Prog

variable {ρ : Type}

namespace Service
variable {svc : Service ρ} {i : Instruction} {t : ThreadId}

/-! ### Lengths of traces -/

theorem Quiet.keepsLength {s s' : St ρ} (h : svc.Quiet t s s') :
    s'.nodes.length = s.nodes.length ∧ s'.request = s.request ∧ s'.world.log = s.world.log := by
  cases h with
  | propagated node rest headers hnodes =>
      refine ⟨?_, rfl, rfl⟩
      rw [hnodes]
      rfl
  | prefixStripped c hc => exact ⟨List.length_modify _ _ _, rfl, rfl⟩
  | protocolSet protocol => exact ⟨List.length_modify _ _ _, rfl, rfl⟩
  | callRendered c r hr => exact ⟨List.length_modify _ _ _, rfl, rfl⟩
  | _ => exact ⟨rfl, rfl, rfl⟩

theorem Finishes.keepsLength {s s' : St ρ} (h : svc.Finishes t s s') :
    s'.nodes.length = s.nodes.length ∧ s'.request = s.request ∧ s'.world.log = s.world.log := by
  cases h with
  | quiet h => exact h.keepsLength
  | responseHeaderRendered node rest r headers hnodes =>
      refine ⟨?_, rfl, rfl⟩
      rw [hnodes]
      rfl

/-- What the next hop gets: one node less, and to be executed once. -/
theorem next_spec {s : St ρ} {sent : Instruction} (h : next i s = some sent) :
    sent.times = 1 ∧ sent.threads = 1 ∧ sent.qps = 0 ∧ sent.nodes.length = s.nodes.length - 1 := by
  unfold next Instruction.getNext at h
  cases hnodes : s.nodes with
  | nil =>
      simp only [Instruction.nodes, Option.getD_some, hnodes] at h
      cases h
  | cons node rest =>
      simp only [Instruction.nodes, Option.getD_some, hnodes] at h
      obtain rfl := Option.some.inj h
      exact ⟨rfl, rfl, rfl, rfl⟩

/-- The values that `rr` has for the trace itself in the iterations of a run are not longer
than the trace.  (A trace of one node calls nothing.) -/
def Fits (i : Instruction) : Prop :=
  ∀ rr, i.rr = some rr → ∀ e ∈ rr.entries, pointer e.1 = some ["trace"] →
    ∀ n < rounds i, ∀ xs, rrValue e.2 n = .ok (.arr xs) → xs.length ≤ max 1 i.nodes.length

theorem pointer_ne_nil {key : String} {path : List String} (h : pointer key = some path) :
    path ≠ [] := by
  rintro rfl
  unfold pointer at h
  have hlen := (mapM_option h).length_eq
  rw [List.length_nil, List.length_eq_zero_iff] at hlen
  exact List.splitOn_ne_nil _ _ hlen

theorem applyPatches_length {M : ℕ} : ∀ {ps : List (String × Json)} {fs : List (String × Json)} {j : Json},
    (∀ p ∈ ps, pointer p.1 = some ["trace"] → ∀ xs, p.2 = .arr xs → xs.length ≤ M) →
    (∀ m, Json.arrayLength "trace" (.obj fs) = some m → m ≤ M) →
    applyPatches ps (.obj fs) = .ok j →
    (∃ gs, j = .obj gs) ∧ ∀ m, Json.arrayLength "trace" j = some m → m ≤ M
  | [], fs, j, _, hfs, h => by
      obtain rfl := Except.ok.inj h
      exact ⟨⟨fs, rfl⟩, hfs⟩
  | (key, v) :: ps, fs, j, hps, hfs, h => by
      unfold applyPatches at h
      cases hpath : pointer key with
      | none =>
          rw [hpath] at h
          cases h
      | some path =>
          cases hreplace : Json.replace false path v (.obj fs) with
          | none =>
              rw [hpath] at h
              simp only [hreplace] at h
              cases h
          | some j' =>
              rw [hpath] at h
              simp only [hreplace] at h
              obtain ⟨gs, rfl⟩ := Json.replace_obj (pointer_ne_nil hpath) hreplace
              refine applyPatches_length (fun p hp => hps p (List.mem_cons_of_mem _ hp)) ?_ h
              intro m hm
              by_cases htrace : path = ["trace"]
              · subst htrace
                rw [Json.arrayLength_replace_self hreplace] at hm
                cases v with
                | arr xs =>
                    obtain rfl := Option.some.inj hm
                    exact hps (key, .arr xs) List.mem_cons_self hpath xs rfl
                | _ => cases hm
              · rw [Json.arrayLength_replace (pointer_ne_nil hpath) htrace hreplace] at hm
                exact hfs m hm

theorem mem_rrPatches {n : ℕ} : ∀ {es : List (Sigma fun _ : String => Option (List Json))}
    {ps : List (String × Json)}, rrPatches n es = .ok ps →
    ∀ p ∈ ps, ∃ e ∈ es, e.1 = p.1 ∧ rrValue e.2 n = .ok p.2
  | [], ps, h, p, hp => by
      obtain rfl := Except.ok.inj h
      cases hp
  | e :: es, ps, h, p, hp => by
      unfold rrPatches at h
      obtain ⟨v, hv, h⟩ := ok_of_bind h
      obtain ⟨qs, hqs, h⟩ := ok_of_bind h
      obtain rfl := Except.ok.inj h
      rcases List.mem_cons.mp hp with rfl | hp
      · exact ⟨e, List.mem_cons_self, rfl, hv⟩
      · obtain ⟨e', he', hkey, hvalue⟩ := mem_rrPatches hqs p hp
        exact ⟨e', List.mem_cons_of_mem _ he', hkey, hvalue⟩

theorem decodeNodes_length {h : Host ρ} {strict : Bool} : ∀ {js : List Json} {ns : List PowerTraceNode},
    decodeNodes h strict js = .ok ns → ns.length = js.length
  | [], ns, hd => by
      obtain rfl := Except.ok.inj hd
      rfl
  | j :: js, ns, hd => by
      unfold decodeNodes at hd
      obtain ⟨n, -, hd⟩ := ok_of_bind hd
      obtain ⟨ms, hms, hd⟩ := ok_of_bind hd
      obtain rfl := Except.ok.inj hd
      rw [List.length_cons, List.length_cons, decodeNodes_length hms]

/-- The trace that is read is that of the object. -/
theorem decodeFields_trace {h : Host ρ} {strict : Bool} {fs : List (String × Json)} {i' : Instruction}
    (hd : decodeFields h strict fs = .ok i') :
    field fs "trace" (some []) (asTrace h strict) = .ok i'.trace := by
  unfold decodeFields at hd
  obtain ⟨trace, htrace, hd⟩ := ok_of_bind hd
  obtain ⟨_, -, hd⟩ := ok_of_bind hd
  obtain ⟨_, -, hd⟩ := ok_of_bind hd
  obtain ⟨_, -, hd⟩ := ok_of_bind hd
  obtain ⟨_, -, hd⟩ := ok_of_bind hd
  obtain ⟨_, -, hd⟩ := ok_of_bind hd
  obtain ⟨_, -, hd⟩ := ok_of_bind hd
  obtain ⟨_, -, hd⟩ := ok_of_bind hd
  obtain ⟨_, -, hd⟩ := ok_of_bind hd
  obtain rfl := Except.ok.inj hd
  exact htrace

theorem decodeRequestCase_trace {h : Host ρ} {strict : Bool} {fs : List (String × Json)}
    {i' : Instruction} (hd : decodeRequestCase h strict (.obj fs) = .ok i') :
    field fs "trace" (some []) (asTrace h strict) = .ok i'.trace := by
  unfold decodeRequestCase at hd
  obtain ⟨_, -, hd⟩ := ok_of_bind hd
  obtain ⟨i, hi, hd⟩ := ok_of_bind hd
  obtain ⟨_, -, hd⟩ := ok_of_bind hd
  obtain ⟨_, -, hd⟩ := ok_of_bind hd
  obtain ⟨_, -, hd⟩ := ok_of_bind hd
  obtain rfl := Except.ok.inj hd
  have htrace := decodeFields_trace hi
  exact htrace

/-- A trace that was read has the length of its array. -/
theorem field_trace_length {h : Host ρ} {strict : Bool} {fs : List (String × Json)}
    {trace : Option (List PowerTraceNode)} {M : ℕ}
    (hfs : ∀ m, Json.arrayLength "trace" (.obj fs) = some m → m ≤ M)
    (htrace : field fs "trace" (some []) (asTrace h strict) = .ok trace) :
    (trace.getD []).length ≤ M := by
  unfold field at htrace
  cases hl : fs.lookup "trace" with
  | none =>
      rw [hl] at htrace
      obtain rfl := Except.ok.inj htrace
      exact Nat.zero_le _
  | some j =>
      rw [hl] at htrace
      simp only [asTrace] at htrace
      cases j with
      | null =>
          obtain rfl := Except.ok.inj htrace
          exact Nat.zero_le _
      | arr js =>
          simp only at htrace
          cases hns : decodeNodes h strict js with
          | error e =>
              rw [hns] at htrace
              cases htrace
          | ok ns =>
              rw [hns] at htrace
              obtain rfl := Except.ok.inj htrace
              rw [Option.getD_some, decodeNodes_length hns]
              apply hfs
              rw [Json.arrayLength, hl]
              rfl
      | _ => cases htrace

/-- **Substitution** does not make the trace of a fitting instruction longer. -/
theorem processLoop_length {n : ℕ} (hi : Fits i) (hn : n < rounds i) {ns : List PowerTraceNode}
    (hns : ns.length = i.nodes.length) {i' : Instruction}
    (h : svc.processLoop { i with trace := some ns } n = .ok i') :
    i'.nodes.length ≤ max 1 i.nodes.length := by
  unfold processLoop at h
  cases hrr : i.rr with
  | none =>
      simp only [hrr] at h
      cases h
  | some rr =>
      simp only [hrr] at h
      split at h
      · obtain rfl := Except.ok.inj h
        show ns.length ≤ _
        omega
      · obtain ⟨ps, hps, h⟩ := ok_of_bind h
        obtain ⟨j, hj, h⟩ := ok_of_bind h
        rw [← hrr] at hj
        have hpatches : ∀ p ∈ ps, pointer p.1 = some ["trace"] → ∀ xs, p.2 = .arr xs →
            xs.length ≤ max 1 i.nodes.length := by
          intro p hp hpath xs hxs
          obtain ⟨e, he, hkey, hvalue⟩ := mem_rrPatches hps p hp
          rw [← hkey] at hpath
          rw [hxs] at hvalue
          exact hi rr hrr e he hpath n hn xs hvalue
        have hstart : ∀ m, Json.arrayLength "trace"
            ({ i with trace := some ns } : Instruction).toJson = some m → m ≤ max 1 i.nodes.length := by
          intro m hm
          have hlen : Json.arrayLength "trace" ({ i with trace := some ns } : Instruction).toJson =
              some (ns.map PowerTraceNode.toJson).length := rfl
          rw [hlen] at hm
          obtain rfl := Option.some.inj hm
          rw [List.length_map]
          omega
        obtain ⟨⟨gs, rfl⟩, hend⟩ := applyPatches_length hpatches hstart hj
        cases hdec : decodeRequestCase svc.host false (.obj gs) with
        | error e =>
            rw [hdec] at h
            cases h
        | ok copy =>
            rw [hdec] at h
            obtain rfl := Except.ok.inj h
            exact field_trace_length hend (decodeRequestCase_trace hdec)

/-! ### The log -/

theorem prefix_put (w : World ρ) (e : Event) : w.log <+: (w.put e).log := List.prefix_append _ _

/-- An execution only adds to the log, if the invokers do. -/
theorem execute_grows {L : List Event} (hinvokers : ∀ protocol invoker,
      svc.invokers protocol = some invoker → ∀ sent v w, w.log <+: (invoker sent v w).2.log)
    {s : St ρ} (hs : L <+: s.world.log) : L <+: (svc.execute i t s).2.world.log := by
  have hfinishes : ∀ t s s', svc.Finishes t s s' → L <+: s.world.log →
      L <+: s'.world.log ∧ 0 ≤ 0 := by
    intro t s s' h hs
    rw [h.keepsLength.2.2]
    exact ⟨hs, le_refl 0⟩
  have hquiet : ∀ t s s', svc.Quiet t s s' → L <+: s.world.log → L <+: s'.world.log ∧ 0 ≤ 0 :=
    fun t s s' h => hfinishes t s s' (.quiet h)
  have hinvoke : ∀ i t protocol invoker, svc.invokers protocol = some invoker →
      Within (fun s : St ρ => L <+: s.world.log) (fun _ => 0) (invoke i t invoker) 0 := by
    intro i t protocol invoker htable
    refine Within.zero (Steps.atomic fun s hs => ?_) 0
    split
    · exact ⟨hs, le_refl 0⟩
    · rename_i sent hsent
      have hcalled := hinvokers protocol invoker htable sent (s.ctx.view t)
        (s.world.put (.invocation s.request sent))
      exact ⟨hs.trans ((prefix_put _ _).trans hcalled), le_refl 0⟩
  have hexecution : ∀ i t, Within (fun s : St ρ => L <+: s.world.log) (fun _ => 0)
      (svc.doExecuteSingle i t) 0 := fun i t =>
    doExecuteSingle_within (hquiet t) fun _ _ _ protocol invoker htable =>
      hinvoke i t protocol invoker htable
  have hsingle : ∀ t handleException qps n, n < rounds i →
      Within (fun s : St ρ => L <+: s.world.log) (fun _ => 0)
        (svc.executeSingle i t handleException qps n) (0 + 0) := by
    intro t handleException qps n _
    refine executeSingle_within (hquiet t) (fun s hs => ⟨hs, le_refl 0⟩) ?_
    refine executeProcessed_within (fun _ => hexecution i t) fun _ s i' hs _ => ?_
    refine Within.withCopy (J := fun s : St ρ => L <+: s.world.log) ?_ ?_ ?_ ?_
      (hexecution i' t) i'.nodes s hs
    · exact fun _ => rfl
    · exact fun _ _ _ _ h => h
    · exact fun _ _ _ h => h
    · exact fun _ _ => rfl
  exact (execute_within hquiet hsingle hfinishes hs).1

end Service

open Service

theorem Network.invoker_grows (net : Network ρ) : ∀ n protocol sent v w,
    w.log <+: (net.invoker n protocol sent v w).2.log
  | 0, protocol, sent, v, w => prefix_put w .cut
  | n + 1, protocol, sent, v, w => by
      unfold Network.invoker
      cases protocol.send sent v w.rand with
      | mk sending r =>
          cases sending with
          | failed e => exact List.prefix_rfl
          | refused response => exact prefix_put { w with rand := r } _
          | arrived d =>
              have hgrows : ∀ protocol invoker, ((net d.process).service (net.invoker n)).invokers
                  protocol = some invoker → ∀ sent v w, w.log <+: (invoker sent v w).2.log := by
                intro name invoker htable
                obtain ⟨protocol, -, rfl⟩ := Option.map_eq_some_iff.mp htable
                exact Network.invoker_grows net n protocol
              have hserved : w.log <+: (((net d.process).service (net.invoker n)).execute d.instruction
                  d.thread (d.begin (World.put { w with rand := r } (.delivery d)))).2.world.log :=
                execute_grows hgrows (prefix_put { w with rand := r } _)
              simp only
              split
              · exact hserved
              · exact hserved.trans (prefix_put _ _)

/-! ### The cost of a log -/

/-- An event that is not about an instruction that does not fit. -/
def EventFits : Event → Prop
  | .invocation received _ => Fits received
  | _ => True

/-- A call as it is to be: executed once, and with a shorter trace. -/
def Proper (received sent : Instruction) : Prop :=
  sent.times = 1 ∧ sent.threads = 1 ∧ sent.qps = 0 ∧ sent.nodes.length < received.nodes.length

open Classical in
/-- A proper call costs one; what is not to be costs `K`. -/
noncomputable def weight (K : ℕ) : Event → ℕ
  | .invocation received sent => if Proper received sent then 1 else K
  | .cut => K
  | _ => 0

open Classical in
/-- The cost of a log in which every instruction fits. -/
noncomputable def cost (K : ℕ) (log : List Event) : ℕ :=
  if ∀ e ∈ log, EventFits e then (log.map (weight K)).sum else 0

variable {K : ℕ}

theorem cost_put (log : List Event) (e : Event) : cost K (log ++ [e]) ≤ cost K log + weight K e := by
  unfold cost
  by_cases hall : ∀ e' ∈ log ++ [e], EventFits e'
  · have hlog : ∀ e' ∈ log, EventFits e' := fun e' he' => hall e' (List.mem_append_left _ he')
    rw [if_pos hall, if_pos hlog, List.map_append, List.sum_append]
    simp
  · rw [if_neg hall]
    exact Nat.zero_le _

theorem cost_of_unfit {log : List Event} {e : Event} (he : e ∈ log) (hfit : ¬ EventFits e) :
    cost K log = 0 := by
  unfold cost
  rw [if_neg]
  exact fun hall => hfit (hall e he)

/-! ### The cost of a run -/

namespace Service
variable {svc : Service ρ} {i : Instruction} {t : ThreadId}

/-- The state of a run of `i` with a trace of length `M`. -/
def RunOf (i : Instruction) (M : ℕ) (s : St ρ) : Prop := s.nodes.length = M ∧ s.request = i

theorem Finishes.cost {M : ℕ} {s s' : St ρ} (h : svc.Finishes t s s') (hs : RunOf i M s) :
    RunOf i M s' ∧ Powerful.cost K s'.world.log ≤ Powerful.cost K s.world.log := by
  obtain ⟨hlength, hrequest, hlog⟩ := h.keepsLength
  refine ⟨⟨hlength.trans hs.1, hrequest.trans hs.2⟩, ?_⟩
  rw [hlog]

/-- The invokers of the service cost at most the nodes that they send, up to `n` of them. -/
def Cheap (svc : Service ρ) (K n : ℕ) : Prop :=
  ∀ protocol invoker, svc.invokers protocol = some invoker → ∀ sent v w,
    w.log <+: (invoker sent v w).2.log ∧
    (sent.times = 1 → 1 ≤ sent.nodes.length → sent.nodes.length ≤ n →
      Powerful.cost K (invoker sent v w).2.log ≤ Powerful.cost K w.log + (sent.nodes.length - 1))

/-- A call costs at most the nodes behind the first one of the received trace. -/
theorem invoke_cost {n M : ℕ} (hcheap : Cheap svc K n) (hn : i.nodes.length ≤ n + 1) (hM : 2 ≤ M)
    (hfits : Fits i → M ≤ max 1 i.nodes.length) {i' : Instruction} {protocol : String}
    {invoker : RemoteInvoker ρ} (htable : svc.invokers protocol = some invoker) :
    Within (RunOf i M) (fun s => Powerful.cost K s.world.log) (invoke i' t invoker)
      (i.nodes.length - 1) := by
  refine Within.atomic fun s hs => ?_
  split
  · exact ⟨hs, Nat.le_add_right _ _⟩
  · rename_i sent hsent
    obtain ⟨htimes, hthreads, hqps, hlength⟩ := next_spec hsent
    rw [hs.1] at hlength
    obtain ⟨hgrows, hcost⟩ := hcheap protocol invoker htable sent (s.ctx.view t)
      (s.world.put (.invocation s.request sent))
    refine ⟨hs, ?_⟩
    by_cases hfit : Fits i
    · have hle : M ≤ i.nodes.length := by
        have hmax := hfits hfit
        omega
      have hproper : Proper s.request sent := by
        rw [hs.2]
        exact ⟨htimes, hthreads, hqps, by omega⟩
      have hput := cost_put (K := K) s.world.log (.invocation s.request sent)
      rw [weight, if_pos hproper] at hput
      have hsent := hcost htimes (by omega) (by omega)
      simp only [World.put] at hsent ⊢
      omega
    · have hmem : Event.invocation s.request sent ∈ (s.world.put (.invocation s.request sent)).log :=
        List.mem_append_right _ List.mem_cons_self
      have hunfit : ¬ EventFits (.invocation s.request sent) := by
        rw [hs.2]
        exact hfit
      show Powerful.cost K (invoker sent (s.ctx.view t) (s.world.put (.invocation s.request sent))).2.log ≤ _
      rw [cost_of_unfit (hgrows.subset hmem) hunfit]
      exact Nat.zero_le _

/-- A run costs at most its executions times the nodes behind the first one. -/
theorem execute_cost {n : ℕ} (hcheap : Cheap svc K n) (hn : i.nodes.length ≤ n + 1) {s : St ρ}
    (hs : RunOf i i.nodes.length s) :
    Powerful.cost K (svc.execute i t s).2.world.log ≤
      Powerful.cost K s.world.log + executionCount i * (i.nodes.length - 1) := by
  have hexecution : ∀ (i' : Instruction) (M : ℕ) (t : ThreadId), (Fits i → M ≤ max 1 i.nodes.length) →
      Within (RunOf i M) (fun s => Powerful.cost K s.world.log) (svc.doExecuteSingle i' t)
        (i.nodes.length - 1) := by
    intro i' M t hfits
    refine doExecuteSingle_within (fun _ _ h hs => (Finishes.quiet h).cost hs) fun s hs hnext protocol invoker htable => ?_
    have hM : 2 ≤ M := by
      have hlt : 1 < s.nodes.length := by simpa using hnext
      have hlen := hs.1
      omega
    exact invoke_cost hcheap hn hM hfits htable
  have hsingle : ∀ t handleException qps n, n < rounds i → Within (RunOf i i.nodes.length)
      (fun s : St ρ => Powerful.cost K s.world.log) (svc.executeSingle i t handleException qps n)
      (0 + (i.nodes.length - 1)) := by
    intro t handleException qps n hrounds
    refine executeSingle_within (fun _ _ h hs => (Finishes.quiet h).cost hs)
      (fun s hs => ⟨hs, le_refl _⟩) ?_
    refine executeProcessed_within (fun _ => hexecution i _ t fun _ => le_max_right _ _)
      fun _ s i' hs hi' => ?_
    refine Within.withCopy (J := RunOf i i'.nodes.length) ?_ ?_ ?_ ?_
      (hexecution i' _ t fun hfit => processLoop_length hfit hrounds hs.1 hi') i'.nodes s ⟨rfl, hs.2⟩
    · exact fun _ => rfl
    · exact fun _ _ _ hJ hI => ⟨hJ.1, hI.2⟩
    · exact fun _ _ hI hJ => ⟨hI.1, hJ.2⟩
    · exact fun _ _ => rfl
  have hbudget := (execute_within (fun _ _ _ h hs => (Finishes.quiet h).cost hs) hsingle
    (fun _ _ _ h hs => h.cost hs) (t := t) hs).2
  rwa [budget_const, Nat.zero_add] at hbudget

end Service

/-- **A call** costs at most the nodes of the trace that it sends, if calls are followed that
deep. -/
theorem Network.invoker_cost {net : Network ρ} (hdelivers : net.Delivers) :
    ∀ n p, Cheap (net.service n p) K n := by
  intro n
  induction n with
  | zero =>
      intro p name invoker htable sent v w
      obtain ⟨protocol, -, rfl⟩ := Option.map_eq_some_iff.mp htable
      exact ⟨net.invoker_grows 0 protocol sent v w, fun _ hpos hle => by omega⟩
  | succ n ih =>
      intro p name invoker htable sent v w
      obtain ⟨protocol, hprotocol, rfl⟩ := Option.map_eq_some_iff.mp htable
      refine ⟨net.invoker_grows (n + 1) protocol sent v w, fun htimes hpos hle => ?_⟩
      unfold Network.invoker
      cases hsend : protocol.send sent v w.rand with
      | mk sending r =>
          cases sending with
          | failed e => exact Nat.le_add_right _ _
          | refused response =>
              have hput := cost_put (K := K) w.log (.answer response)
              exact hput.trans (Nat.le_add_right _ _)
          | arrived d =>
              obtain ⟨hlength, htimes'⟩ := hdelivers p name protocol hprotocol sent v w.rand d r hsend
              have hserved := execute_cost (K := K) (t := d.thread) (ih d.process) (by omega)
                (s := d.begin (World.put { w with rand := r } (.delivery d))) ⟨rfl, rfl⟩
              have hput := cost_put (K := K) w.log (.delivery d)
              have hcount : executionCount d.instruction = 1 := by
                unfold executionCount
                rw [htimes', htimes]
                rfl
              rw [hcount, hlength, Nat.one_mul] at hserved
              have htotal := hserved.trans (Nat.add_le_add_right hput _)
              simp only
              split
              · exact htotal
              · exact (cost_put (K := K) _ _).trans htotal

/-! ### The result -/

def Event.isCall : Event → Bool
  | .invocation _ _ => true
  | _ => false

/-- The instruction of a call. -/
def Event.sent : Event → Option Instruction
  | .invocation _ sent => some sent
  | _ => none

/-- The number of calls in a log. -/
def calls (log : List Event) : ℕ := log.countP Event.isCall

theorem calls_le_sum {log : List Event} (h : ∀ e ∈ log, e.isCall = true → 1 ≤ weight K e) :
    calls log ≤ (log.map (weight K)).sum := by
  induction log with
  | nil => exact le_refl 0
  | cons e log ih =>
      have hrest := ih fun e he => h e (List.mem_cons_of_mem _ he)
      unfold calls at hrest ⊢
      rw [List.map_cons, List.sum_cons, List.countP_cons]
      split
      · rename_i hcall
        have hone := h e List.mem_cons_self hcall
        omega
      · omega

/-- **No load amplification**: in a run in which every instruction acted on fits, each call is
proper, the chain of calls ends, and there are at most as many calls as executions times nodes
behind the first one. -/
theorem no_amplification {net : Network ρ} (hdelivers : net.Delivers) {i : Instruction} (hN : 1 ≤ i.times)
    {n : ℕ} (hn : i.nodes.length ≤ n + 1) (p : ℕ) (t : ThreadId) {s : St ρ}
    (hnodes : s.nodes = i.nodes) (hrequest : s.request = i) (hlog : s.world.log = [])
    (hfits : ∀ e ∈ ((net.service n p).execute i t s).2.world.log, EventFits e) :
    (∀ received sent, .invocation received sent ∈ ((net.service n p).execute i t s).2.world.log →
      Proper received sent) ∧
    .cut ∉ ((net.service n p).execute i t s).2.world.log ∧
    calls ((net.service n p).execute i t s).2.world.log ≤ totalTimes i * (i.nodes.length - 1) := by
  have hcount : executionCount i = totalTimes i := by
    unfold executionCount totalTimes
    rw [Int32.le_iff_toInt_le] at hN
    have hone : (1 : Int32).toInt = 1 := by decide
    split
    · rename_i hle
      rw [Int32.le_iff_toInt_le] at hle
      omega
    · rfl
  obtain ⟨K, hK⟩ : ∃ K, K = totalTimes i * (i.nodes.length - 1) + 1 := ⟨_, rfl⟩
  have hcost := execute_cost (K := K) (t := t) (net.invoker_cost hdelivers n p) hn (s := s)
    ⟨by rw [hnodes], hrequest⟩
  have hstart : cost K s.world.log = 0 := by
    rw [hlog]
    simp [cost]
  rw [hstart, hcount, Nat.zero_add, cost, if_pos hfits] at hcost
  have hlight : ∀ e ∈ ((net.service n p).execute i t s).2.world.log, weight K e < K := by
    intro e he
    have hle := List.le_sum_of_mem (List.mem_map_of_mem (f := weight K) he)
    omega
  have hproper : ∀ received sent, .invocation received sent ∈
      ((net.service n p).execute i t s).2.world.log → Proper received sent := by
    intro received sent he
    by_contra hnot
    have hlt := hlight _ he
    rw [weight, if_neg hnot] at hlt
    exact lt_irrefl _ hlt
  refine ⟨hproper, fun hcut => ?_, ?_⟩
  · have hlt := hlight _ hcut
    exact lt_irrefl _ hlt
  · refine (calls_le_sum fun e he hcall => ?_).trans hcost
    cases e with
    | invocation received sent => rw [weight, if_pos (hproper received sent he)]
    | _ => cases hcall

theorem fits_of_empty {i : Instruction} (h : (i.rr.map fun rr => rr.entries.isEmpty) = some true) :
    Fits i := by
  intro rr hrr e he
  rw [hrr] at h
  have hempty := List.isEmpty_iff.mp (Option.some.inj h)
  rw [hempty] at he
  cases he

/-- Two executions that call a target, which calls one in its turn. -/
def chainInstruction : Instruction where
  trace := some [{}, { call := some "a" }, { call := some "b" }]
  times := 2
  collectBy := some "list"
  traceNodeTmpl := some "ok"

/-- An instruction that puts a target to call into every trace. -/
def endlessInstruction : Instruction where
  trace := some [{}, { call := some "a" }]
  collectBy := some "list"
  traceNodeTmpl := some "ok"
  log := false
  rr := some (AList.singleton "trace" (some [.arr [.obj [], .obj [("call", .str "a")]]]))

/-- The log of its run, with calls followed to depth `n`. -/
def logOf (i : Instruction) (n : ℕ) : List Event :=
  (((Http.processes Http.sample).service n 0).execute i 0
    { nodes := i.nodes, ctx := .new 0, world := { rand := () }, request := i }).2.world.log

theorem no_amplification_sample :
    (∀ received sent, .invocation received sent ∈ logOf chainInstruction 2 → Proper received sent) ∧
    .cut ∉ logOf chainInstruction 2 ∧ calls (logOf chainInstruction 2) ≤ 2 * (3 - 1) := by
  have hempty : (logOf chainInstruction 2).all (fun e => match e with
      | .invocation received _ => (received.rr.map fun rr => rr.entries.isEmpty) == some true
      | _ => true) = true := by decide +kernel
  refine no_amplification (i := chainInstruction) Http.sample_delivers (by decide) (by decide) 0 0
    rfl rfl rfl fun e he => ?_
  have hfits := List.all_eq_true.mp hempty e he
  cases e with
  | invocation received sent => exact fits_of_empty (eq_of_beq hfits)
  | _ => trivial

/-- The trace of the target is replaced as well, by one that calls on: of a trace of two nodes
come as many calls as are followed, and the chain does not end. -/
theorem load_amplified :
    totalTimes endlessInstruction * (endlessInstruction.nodes.length - 1) = 1 ∧
    calls (logOf endlessInstruction 4) = 5 ∧ calls (logOf endlessInstruction 8) = 9 ∧
    (logOf endlessInstruction 4).any (fun e => match e with
      | .invocation received sent => received.nodes.length == sent.nodes.length
      | _ => false) = true := by
  exact ⟨rfl, by decide +kernel, by decide +kernel, by decide +kernel⟩

end Powerful
