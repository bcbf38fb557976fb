import Mathlib
import Powerful.Budgets
import Powerful.Http

/-! # The response headers of an answer

The response headers of the current node are templates.  A repeated run renders them behind its
report (`renderResponseHeaders`), a single execution does not, so a template that contains an
expression is sent as it stands.  Besides, the answer holds its headers in a map whose names are
compared without case.

`headersReach_iff` says for which header maps, and how many executions, every run that returns
leaves each header as its template renders in the final context, and that the answer sends
exactly these headers only if their names are distinct without case. -/

namespace Powerful

open Resumption Prog

variable {ρ : Type}

/-! ### The headers of a message -/

/-- A header name without its spelling. -/
def lowerName (name : String) : List Char := name.toList.map Char.toLower

/-- The fields of a message are exactly the headers. -/
def Sends (headers : Headers) (fields : List (String × Option String)) : Prop :=
  ∀ f, f ∈ fields ↔ headers.lookup f.1 = some f.2

/-- No two names are equal without case. -/
def DistinctNames (headers : Headers) : Prop :=
  ∀ k ∈ headers, ∀ l ∈ headers, lowerName k = lowerName l → k = l

/-- The fields have distinct names. -/
def DistinctFields (fields : List (String × Option String)) : Prop :=
  fields.Pairwise fun f g => lowerName f.1 ≠ lowerName g.1

theorem setHeader_distinct (name : String) (value : Option String)
    {fields : List (String × Option String)} (h : DistinctFields fields) :
    DistinctFields (setHeader name value fields) := by
  refine List.pairwise_append.mpr ⟨h.filter _, List.pairwise_singleton _ _, ?_⟩
  intro f hf g hg
  rw [List.mem_singleton.mp hg]
  simpa [lowerName] using (List.mem_filter.mp hf).2

theorem setHeader_fresh {name : String} {value : Option String}
    {fields : List (String × Option String)}
    (h : ∀ f ∈ fields, lowerName f.1 ≠ lowerName name) :
    setHeader name value fields = fields ++ [(name, value)] := by
  unfold setHeader
  rw [List.filter_eq_self.mpr]
  intro f hf
  simpa [lowerName] using h f hf

/-- Whatever is set, the fields have distinct names. -/
theorem foldl_setHeader_distinct : ∀ (es : List (Sigma fun _ : String => Option String))
    {fields : List (String × Option String)}, DistinctFields fields →
      DistinctFields (es.foldl (fun fields e => setHeader e.1 e.2 fields) fields)
  | [], _, h => h
  | e :: es, _, h => foldl_setHeader_distinct es (setHeader_distinct e.1 e.2 h)

/-- Headers with distinct names are set one by one. -/
theorem foldl_setHeader_eq : ∀ (es : List (Sigma fun _ : String => Option String))
    {fields : List (String × Option String)},
    (fields ++ es.map fun e => (e.1, e.2)).Pairwise (fun f g => lowerName f.1 ≠ lowerName g.1) →
      es.foldl (fun fields e => setHeader e.1 e.2 fields) fields =
        fields ++ es.map fun e => (e.1, e.2)
  | [], fields, _ => by simp
  | e :: es, fields, h => by
      have hfresh : ∀ f ∈ fields, lowerName f.1 ≠ lowerName e.1 := by
        intro f hf
        exact (List.pairwise_append.mp h).2.2 f hf (e.1, e.2) (by simp)
      rw [List.foldl_cons, setHeader_fresh hfresh]
      rw [foldl_setHeader_eq es (by simpa using h)]
      simp

theorem entries_distinct {headers : Headers} (h : DistinctNames headers) :
    DistinctFields (headers.entries.map fun e => (e.1, e.2)) := by
  have hkeys : headers.entries.Pairwise fun e f => e.1 ≠ f.1 :=
    List.nodupKeys_iff_pairwise.mp headers.nodupKeys
  unfold DistinctFields
  rw [List.pairwise_map]
  refine hkeys.imp_of_mem fun {e f} he hf hne hname => hne ?_
  exact h e.1 (AList.mem_keys.mpr (List.mem_map_of_mem he)) f.1
    (AList.mem_keys.mpr (List.mem_map_of_mem hf)) hname

theorem mem_entries_iff {headers : Headers} (f : String × Option String) :
    f ∈ headers.entries.map (fun e => (e.1, e.2)) ↔ headers.lookup f.1 = some f.2 := by
  constructor
  · intro hf
    obtain ⟨e, he, rfl⟩ := List.mem_map.mp hf
    exact AList.mem_lookup_iff.mpr he
  · intro hf
    exact List.mem_map.mpr ⟨⟨f.1, f.2⟩, AList.mem_lookup_iff.mp hf, rfl⟩

/-- **Sent headers**: all of them are sent if and only if their names are distinct without
case. -/
theorem sends_iff (headers : Headers) : Sends headers (httpHeaders headers) ↔ DistinctNames headers := by
  constructor
  · intro h k hk l hl hname
    obtain ⟨v, hv⟩ := Option.isSome_iff_exists.mp (AList.lookup_isSome.mpr hk)
    obtain ⟨w, hw⟩ := Option.isSome_iff_exists.mp (AList.lookup_isSome.mpr hl)
    have hkf : (k, v) ∈ httpHeaders headers := (h (k, v)).mpr hv
    have hlf : (l, w) ∈ httpHeaders headers := (h (l, w)).mpr hw
    by_contra hne
    have hdistinct : DistinctFields (httpHeaders headers) :=
      foldl_setHeader_distinct headers.entries List.Pairwise.nil
    have hsymm : Std.Symm fun f g : String × Option String => lowerName f.1 ≠ lowerName g.1 :=
      ⟨fun _ _ hfg => Ne.symm hfg⟩
    exact hdistinct.forall hkf hlf (fun heq => hne (congrArg Prod.fst heq)) hname
  · intro h f
    have heq : httpHeaders headers = [] ++ headers.entries.map fun e => (e.1, e.2) := by
      apply foldl_setHeader_eq
      exact entries_distinct h
    rw [heq, List.nil_append]
    exact mem_entries_iff f

/-! ### The headers of the current node -/

/-- The response headers of the current node. -/
def responseHeadersOf (s : St ρ) : Option Headers := s.nodes.head?.bind PowerTraceNode.responseHeaders

namespace Service
variable {svc : Service ρ} {i : Instruction} {t : ThreadId}

/-- The current node keeps its response headers. -/
def KeepsResponse (s s' : St ρ) : Prop := responseHeadersOf s' = responseHeadersOf s

theorem responseHeadersOf_modifyNext (s : St ρ) (f : PowerTraceNode → PowerTraceNode) :
    responseHeadersOf (s.modifyNext f) = responseHeadersOf s := by
  unfold responseHeadersOf St.modifyNext
  cases s.nodes with
  | nil => rfl
  | cons node rest => rfl

theorem Quiet.keepsResponse {s s' : St ρ} (h : svc.Quiet t s s') : KeepsResponse s s' := by
  cases h with
  | propagated node rest headers hnodes =>
      unfold KeepsResponse responseHeadersOf
      rw [hnodes]
      rfl
  | prefixStripped c hc => exact responseHeadersOf_modifyNext s _
  | protocolSet protocol => exact responseHeadersOf_modifyNext s _
  | callRendered c r hr => exact responseHeadersOf_modifyNext _ _
  | _ => rfl

theorem Does.keepsResponse {s s' : St ρ} (h : svc.Does i t s s') : KeepsResponse s s' := by
  cases h with
  | quiet h => exact h.keepsResponse
  | invoked => rfl

instance : IsPreorder (St ρ) KeepsResponse where
  refl _ := rfl
  trans _ _ _ h h' := Eq.trans h' h

theorem executeSingle_keepsResponse (handleException : Bool) (qps : ℚ) (n : ℕ) :
    (svc.executeSingle i t handleException qps n).Steps KeepsResponse := by
  refine Steps.bind (Steps.modify fun _ => rfl) fun _ => ?_
  exact executeBody_steps (fun _ _ _ _ h => h.keepsResponse) (fun _ _ h => h.keepsResponse)
    fun _ _ _ _ _ => rfl

theorem executeOnce_keepsResponse : (svc.executeOnce i t).Steps KeepsResponse :=
  Steps.bind (executeSingle_keepsResponse false 0 0) fun _ =>
    Steps.bind (Steps.modify fun _ => rfl) fun _ => Steps.pure _

theorem executeForTimes_keepsResponse (hi : ¬ i.times ≤ 1) (s : St ρ) :
    KeepsResponse s (svc.executeForTimes i t s).2 := by
  have hsteps : ∀ u u' : St ρ, KeepsResponse u u' → responseHeadersOf u = responseHeadersOf s →
      responseHeadersOf u' = responseHeadersOf s ∧ 0 ≤ 0 := fun u u' h hu => ⟨h.trans hu, le_refl 0⟩
  have hsingle : ∀ t handleException qps n, n < rounds i →
      Within (fun u : St ρ => responseHeadersOf u = responseHeadersOf s) (fun _ => 0)
        (svc.executeSingle i t handleException qps n) 0 := fun t handleException qps n _ =>
    Within.zero (Steps.mono hsteps (executeSingle_keepsResponse handleException qps n)) 0
  exact (executeForTimes_within (fun _ _ _ h => hsteps _ _ h.keepsResponse) hsingle hi rfl).1

/-! ### Rendering them -/

/-- Every header has the value that its template renders to, for some random draws. -/
def Rendered (h : Host ρ) (v : View) (original final : Headers) : Prop :=
  (∀ k, k ∈ final ↔ k ∈ original) ∧
  ∀ k tmpl, original.lookup k = some tmpl → ∃ value r, final.lookup k = some value ∧
    (renderNullable h v tmpl r).1 = .ok value

theorem renderResponseHeader_run {k : String} {s s' : St ρ} {cur : Headers}
    (hcur : responseHeadersOf s = some cur) (hrun : (svc.renderResponseHeader t k).run s = (.ok (), s')) :
    s'.ctx = s.ctx ∧ ∃ final, responseHeadersOf s' = some final ∧
      (∀ l, l ∈ final ↔ l ∈ cur) ∧ (∀ l, l ≠ k → final.lookup l = cur.lookup l) ∧
      ∀ tmpl, cur.lookup k = some tmpl → ∃ value r, final.lookup k = some value ∧
        (renderNullable svc.host (s.ctx.view t) tmpl r).1 = .ok value := by
  unfold renderResponseHeader at hrun
  rw [run_atomic] at hrun
  unfold responseHeadersOf at hcur
  cases hnodes : s.nodes with
  | nil =>
      rw [hnodes] at hcur
      cases hcur
  | cons node rest =>
      rw [hnodes] at hcur
      have hnode : node.responseHeaders = some cur := hcur
      simp only [hnodes, hnode, Option.bind_some] at hrun
      cases hk : cur.lookup k with
      | none =>
          rw [hk] at hrun
          obtain ⟨-, rfl⟩ := Prod.mk.inj hrun
          refine ⟨rfl, cur, ?_, fun _ => Iff.rfl, fun _ _ => rfl, fun tmpl htmpl => by cases htmpl⟩
          unfold responseHeadersOf
          rw [hnodes]
          exact hnode
      | some tmpl =>
          rw [hk] at hrun
          simp only at hrun
          split at hrun
          · cases hrun
          · rename_i value r hrender
            obtain ⟨-, rfl⟩ := Prod.mk.inj hrun
            have hmem : k ∈ cur := AList.lookup_isSome.mp (by rw [hk]; rfl)
            refine ⟨rfl, cur.insert k value, rfl, fun l => ?_, fun l hl => AList.lookup_insert_ne hl, ?_⟩
            · rw [AList.mem_insert]
              constructor
              · rintro (rfl | hl)
                · exact hmem
                · exact hl
              · exact Or.inr
            · intro tmpl' htmpl'
              obtain rfl := Option.some.inj htmpl'
              exact ⟨value, s.world.rand, AList.lookup_insert cur, by rw [hrender]⟩

theorem renderResponseHeaderList_run : ∀ (ks : List String) {s s' : St ρ} {cur : Headers}, ks.Nodup →
    responseHeadersOf s = some cur → (svc.renderResponseHeaderList t ks).run s = (.ok (), s') →
    s'.ctx = s.ctx ∧ ∃ final, responseHeadersOf s' = some final ∧
      (∀ l, l ∈ final ↔ l ∈ cur) ∧ (∀ l, l ∉ ks → final.lookup l = cur.lookup l) ∧
      ∀ k ∈ ks, ∀ tmpl, cur.lookup k = some tmpl → ∃ value r, final.lookup k = some value ∧
        (renderNullable svc.host (s.ctx.view t) tmpl r).1 = .ok value
  | [], s, s', cur, _, hcur, hrun => by
      obtain ⟨-, rfl⟩ := Prod.mk.inj hrun
      exact ⟨rfl, cur, hcur, fun _ => Iff.rfl, fun _ _ => rfl, fun k hk => by cases hk⟩
  | k :: ks, s, s', cur, hks, hcur, hrun => by
      obtain ⟨hkks, hks⟩ := List.nodup_cons.mp hks
      unfold renderResponseHeaderList at hrun
      cases hfirst : (svc.renderResponseHeader t k).run s with
      | mk out s₁ =>
          cases out with
          | error e =>
              rw [run_bind_error hfirst] at hrun
              cases hrun
          | ok u =>
              rw [run_bind_ok hfirst] at hrun
              obtain ⟨hctx₁, mid, hmid, hkeys₁, hother₁, hvalue₁⟩ :=
                renderResponseHeader_run hcur hfirst
              obtain ⟨hctx, final, hfinal, hkeys, hother, hvalue⟩ :=
                renderResponseHeaderList_run ks hks hmid hrun
              refine ⟨hctx.trans hctx₁, final, hfinal, fun l => (hkeys l).trans (hkeys₁ l),
                fun l hl => ?_, fun l hl tmpl htmpl => ?_⟩
              · rw [List.mem_cons, not_or] at hl
                exact (hother l hl.2).trans (hother₁ l hl.1)
              · rcases List.mem_cons.mp hl with rfl | hl
                · rw [hother l hkks]
                  exact hvalue₁ tmpl htmpl
                · have hne : l ≠ k := fun heq => hkks (heq ▸ hl)
                  rw [← hctx₁]
                  exact hvalue l hl tmpl ((hother₁ l hne).trans htmpl)

/-- Behind the report every header is rendered. -/
theorem finish_rendered {result : Json} {s s' : St ρ} {original : Headers} {j : Json}
    (horiginal : responseHeadersOf s = some original)
    (hrun : (svc.finish t result).run s = (.ok j, s')) :
    ∃ final, responseHeadersOf s' = some final ∧ Rendered svc.host (s'.ctx.view t) original final := by
  have hstore : (storeResult t result).run s =
      (.ok (), s.withCtx (s.ctx.setResult t { s.ctx.getResult t with result := result })) := rfl
  unfold finish at hrun
  rw [run_bind_ok hstore] at hrun
  obtain ⟨s₁, hs₁⟩ : ∃ s₁, s₁ =
    s.withCtx (s.ctx.setResult t { s.ctx.getResult t with result := result }) := ⟨_, rfl⟩
  have hcur : responseHeadersOf s₁ = some original := by
    rw [hs₁]
    exact horiginal
  rw [← hs₁] at hrun
  cases hheaders : (svc.renderResponseHeaders t).run s₁ with
  | mk out s₂ =>
      cases out with
      | error e =>
          rw [run_bind_error hheaders] at hrun
          cases hrun
      | ok u =>
          rw [run_bind_ok hheaders] at hrun
          obtain ⟨-, rfl⟩ := Prod.mk.inj hrun
          unfold renderResponseHeaders at hheaders
          rw [run_bind_ok (run_read _ _)] at hheaders
          have hnames : (s₁.nodes.head?.bind fun node => node.responseHeaders.map AList.keys) =
              some original.keys := by
            unfold responseHeadersOf at hcur
            obtain ⟨node, hnode, hnodeHeaders⟩ := Option.bind_eq_some_iff.mp hcur
            rw [hnode, Option.bind_some, hnodeHeaders]
            rfl
          rw [hnames] at hheaders
          obtain ⟨hctx, final, hfinal, hkeys, -, hvalue⟩ :=
            renderResponseHeaderList_run original.keys original.keys_nodup hcur hheaders
          refine ⟨final, hfinal, hkeys, fun k tmpl htmpl => ?_⟩
          rw [hctx]
          refine hvalue k ?_ tmpl htmpl
          exact AList.mem_keys.mp (AList.lookup_isSome.mp (by rw [htmpl]; rfl))

/-! ### A run without surroundings -/

/-- An instruction that answers at once. -/
def plainInstruction (times : Int32) (headers : Headers) : Instruction where
  trace := some [{ responseHeaders := some headers }]
  times := times
  collectBy := none
  traceNodeTmpl := some "ok"

def plainService : Service Unit where
  host := .bare
  invokers _ := none

def plainState (times : Int32) (headers : Headers) : St Unit where
  nodes := (plainInstruction times headers).nodes
  ctx := .new 0
  world := { rand := () }
  request := plainInstruction times headers

theorem plain_delay (headers : Headers) :
    (delay { responseHeaders := some headers } : Run Unit Unit) = Prog.pure () := by
  unfold delay
  rw [if_neg (by norm_num)]
  rfl

theorem plain_executeProcessed (times : Int32) (headers : Headers) :
    (plainService.executeProcessed (plainInstruction times headers) 0 0).run
      ((plainState times headers).perform 0) = (.ok none, (plainState times headers).perform 0) := by
  show (do
    plainService.invokeTestMethod 0 { responseHeaders := some headers }
    delay { responseHeaders := some headers }
    plainService.errorByPercent { responseHeaders := some headers }
    plainService.code { responseHeaders := some headers }
    plainService.call (plainInstruction times headers) 0 : Run Unit (Option PowerfulResponse)).run
      ((plainState times headers).perform 0) = _
  rw [plain_delay]
  rfl

/-- The view in which it ends. -/
def plainView : View := ⟨some ∅, "", ∅, { response := { result := .str "ok" } }⟩

theorem plain_run (times : Int32) (headers : Headers) :
    ∃ s', (plainService.executeOnce (plainInstruction times headers) 0).run (plainState times headers) =
        (.ok (.str "ok"), s') ∧
      responseHeadersOf s' = some headers ∧ s'.ctx.view 0 = plainView := by
  obtain ⟨s₁, hs₁⟩ : ∃ s₁, s₁ = (plainState times headers).perform 0 := ⟨_, rfl⟩
  have hwait : (plainService.awaitTurn 0).run s₁ = (.ok (), s₁) := by
    unfold awaitTurn
    rw [if_pos rfl]
    rfl
  have hsleep : (sleep : Run Unit Unit).run s₁ = (.ok (), s₁) := rfl
  have hdraw : (draw plainService.host.nanoTime).run s₁ = (.ok 0, s₁) := rfl
  have hprocessed : (plainService.executeProcessed (plainInstruction times headers) 0 0).attempt.run s₁ =
      (.ok (.ok none), s₁) := by
    rw [run_attempt, hs₁, plain_executeProcessed]
  have htemplate : template (plainInstruction times headers) = .ok (some "ok") := rfl
  unfold executeOnce executeSingle executeBody
  simp only [htemplate, ofExcept_bind]
  rw [run_bind, run_bind_ok (run_modify _ _), ← hs₁, run_bind_ok hwait, run_bind_ok hsleep,
    run_bind_ok hdraw, run_bind_ok hprocessed, hs₁]
  refine ⟨_, rfl, rfl, ?_⟩
  show (⟨some ∅, "", ∅, { response := { result := .str "ok" },
                          delayMillis := (((0 : ℕ) : ℚ) - (0 : ℕ)) / 1000000 }⟩ : View) = plainView
  norm_num [plainView]

theorem zeros_brace (n : ℕ) (r : Unit) : '{' ∉ (randomDigits Host.bare n r).1.toList := by
  induction n with
  | zero => simp [randomDigits]
  | succ n ih =>
      have hdigit : '{' ∉ (toString 0).toList := by decide
      simp only [randomDigits, Host.bare, String.toList_append, List.mem_append]
      exact not_or.mpr ⟨hdigit, ih⟩

theorem randomInt_zero {params : List String} {r r' : Unit} {n : ℤ}
    (h : randomInt Host.bare params r = (.ok n, r')) : n = 0 := by
  unfold randomInt at h
  split at h
  · exact (Except.ok.inj (Prod.mk.inj h).1).symm
  · split at h
    · cases h
    · split at h
      · cases h
      · exact (Except.ok.inj (Prod.mk.inj h).1).symm
  · split at h
    · cases h
    · cases h
    · split at h
      · cases h
      · exact (Except.ok.inj (Prod.mk.inj h).1).symm
  · cases h

/-- A function that finds nothing. -/
theorem byFirstParam_empty {f : String → Except Exc (Option String)}
    (hf : ∀ k result, f k = .ok result → result.getD "" = "") {params : List String} {r r' : Unit}
    {result : Option String} (hrun : byFirstParam f params r = (.ok result, r')) :
    result.getD "" = "" := by
  obtain ⟨hr, -⟩ := Prod.mk.inj hrun
  split at hr
  · cases hr
  · exact hf _ _ hr

/-- No expression has a brace in its value there. -/
theorem plain_function {name : String} {function : List String → Unit → Except Exc (Option String) × Unit}
    (h : exprFunc Host.bare plainView name = some function) {params : List String} {r r' : Unit}
    {result : Option String} (hrun : function params r = (.ok result, r')) :
    '{' ∉ (result.getD "").toList := by
  have hempty : '{' ∉ "".toList := by decide
  have hvalue : ∀ {text : String}, '{' ∉ text.toList → (.ok (some text), r) = ((.ok result, r') :
      Except Exc (Option String) × Unit) → '{' ∉ (result.getD "").toList := by
    intro text htext heq
    obtain rfl := Except.ok.inj (Prod.mk.inj heq).1
    exact htext
  have hnothing : ∀ {f : String → Except Exc (Option String)},
      (∀ k result, f k = .ok result → result.getD "" = "") →
      byFirstParam f params r = (.ok result, r') → '{' ∉ (result.getD "").toList := by
    intro f hf hfirst
    rw [byFirstParam_empty hf hfirst]
    exact hempty
  unfold exprFunc at h
  split at h
  · obtain rfl := Option.some.inj h
    simp only at hrun
    split at hrun
    · cases hrun
    · exact hvalue (zeros_brace _ r) hrun
  · obtain rfl := Option.some.inj h
    simp only at hrun
    split at hrun
    · cases hrun
    · rename_i n r₁ hn
      rw [randomInt_zero hn] at hrun
      exact hvalue (by decide) hrun
  · obtain rfl := Option.some.inj h
    refine hnothing (fun k result hk => ?_) hrun
    split at hk
    · cases hk
    · obtain rfl := Except.ok.inj hk
      rfl
  · obtain rfl := Option.some.inj h
    refine hnothing (fun k result hk => ?_) hrun
    obtain rfl := Except.ok.inj hk
    rfl
  · obtain rfl := Option.some.inj h
    refine hnothing (fun k result hk => ?_) hrun
    obtain rfl := Except.ok.inj hk
    rfl
  · obtain rfl := Option.some.inj h
    refine hnothing (fun k result hk => ?_) hrun
    obtain rfl := Except.ok.inj hk
    rfl
  · obtain rfl := Option.some.inj h
    refine hnothing (fun k result hk => ?_) hrun
    obtain rfl := Except.ok.inj hk
    rfl
  · obtain rfl := Option.some.inj h
    exact hvalue hempty hrun
  · obtain rfl := Option.some.inj h
    exact hvalue (by decide) hrun
  · obtain rfl := Option.some.inj h
    refine hnothing (fun k result hk => ?_) hrun
    obtain rfl := Except.ok.inj hk
    rfl
  · obtain rfl := Option.some.inj h
    have htext : '{' ∉ "zhranklin.powerful.model.PowerfulResponse@0".toList := by decide
    exact hvalue htext hrun
  · obtain rfl := Option.some.inj h
    exact hvalue (by decide) hrun
  · obtain rfl := Option.some.inj h
    obtain rfl := Except.ok.inj (Prod.mk.inj hrun).1
    exact hempty
  · obtain rfl := Option.some.inj h
    exact hvalue (by decide) hrun
  · obtain rfl := Option.some.inj h
    exact hvalue (by decide) hrun
  · cases h

theorem plain_values {e : List Char} {r r' : Unit} {text : String}
    (h : calcExpr Host.bare plainView e r = (.ok text, r')) : '{' ∉ text.toList := by
  unfold calcExpr at h
  split at h
  · cases h
  · split at h
    · cases h
    · rename_i function hfunction
      simp only at h
      split at h
      · cases h
      · rename_i result r₁ hresult
        obtain rfl := Except.ok.inj (Prod.mk.inj h).1
        exact plain_function hfunction hresult

/-! ### The answer -/

/-- The run leaves every header rendered, and the answer sends exactly these headers. -/
def HeadersReach (svc : Service ρ) (i : Instruction) (t : ThreadId) (s : St ρ) (original : Headers)
    (result : Json) : Prop :=
  ∃ final status body fields, responseHeadersOf (svc.execute i t s).2 = some final ∧
    Rendered svc.host ((svc.execute i t s).2.ctx.view t) original final ∧
    HttpController.answer svc.host t (.ok result) (svc.execute i t s).2 = .ok (status, body, fields) ∧
    Sends final fields

theorem answer_fields (h : Host ρ) (t : ThreadId) (result : Json) {s : St ρ} {final : Headers}
    (hfinal : responseHeadersOf s = some final) : ∃ status body,
      HttpController.answer h t (.ok result) s = .ok (status, body, httpHeaders final) := by
  unfold HttpController.answer
  have hhead : s.nodes.head?.bind PowerTraceNode.responseHeaders = some final := hfinal
  rw [hhead]
  exact ⟨_, _, rfl⟩

/-- A run that returns: a single execution leaves the headers as they are, a repeated one
renders them. -/
theorem execute_headers {s : St ρ} {original : Headers} {result : Json}
    (horiginal : responseHeadersOf s = some original) (hok : (svc.execute i t s).1 = .ok result) :
    ∃ final, responseHeadersOf (svc.execute i t s).2 = some final ∧
      (i.times ≤ 1 → final = original) ∧
      (¬ i.times ≤ 1 → Rendered svc.host ((svc.execute i t s).2.ctx.view t) original final) := by
  unfold execute at hok ⊢
  by_cases hi : i.times ≤ 1
  · rw [if_pos hi] at hok ⊢
    refine ⟨original, ?_, fun _ => rfl, fun h => absurd hi h⟩
    exact (executeOnce_keepsResponse.run s).trans horiginal
  · rw [if_neg hi] at hok ⊢
    have hkeeps : KeepsResponse s (svc.executeForTimes i t s).2 := executeForTimes_keepsResponse hi s
    cases hrun : svc.executeForTimes i t s with
    | mk out s₁ =>
        rw [hrun] at hok hkeeps
        cases out with
        | error e => cases hok
        | ok report =>
            simp only at hok ⊢
            obtain ⟨final, hfinal, hrendered⟩ := finish_rendered (hkeeps.trans horiginal)
              (Prod.ext hok rfl : (svc.finish t report).run s₁ = (.ok result, _))
            exact ⟨final, hfinal, fun h => absurd h hi, fun _ => hrendered⟩

/-- The names of the headers stay. -/
theorem Rendered.distinct {h : Host ρ} {v : View} {original final : Headers}
    (hrendered : Rendered h v original final) : DistinctNames final ↔ DistinctNames original := by
  unfold DistinctNames
  simp only [hrendered.1]

/-- Headers without expressions are rendered as they are. -/
theorem rendered_literal (h : Host ρ) (v : View) (r : ρ) {original : Headers}
    (hliteral : ∀ k text, original.lookup k = some (some text) → hasExpr text = false) :
    Rendered h v original original := by
  refine ⟨fun _ => Iff.rfl, fun k tmpl htmpl => ⟨tmpl, r, htmpl, ?_⟩⟩
  cases tmpl with
  | none => rfl
  | some text => rw [renderNullable_ok (render_literal h v (hliteral k text htmpl) r)]

theorem not_rendered_plain {original : Headers} {k text : String}
    (hk : original.lookup k = some (some text)) (hexpr : hasExpr text = true) :
    ¬ Rendered Host.bare plainView original original := by
  intro hrendered
  obtain ⟨value, r, hvalue, hrender⟩ := hrendered.2 k (some text) hk
  obtain rfl := Option.some.inj (hk.symm.trans hvalue)
  unfold renderNullable at hrender
  simp only at hrender
  cases hrun : render Host.bare plainView text r with
  | mk out r' =>
      rw [hrun] at hrender
      cases out with
      | error e => cases hrender
      | ok t =>
          obtain rfl := Option.some.inj (Except.ok.inj hrender)
          exact render_ne_source (fun e r t r' h => plain_values h) hexpr hrun rfl

/-- **Rendered headers**: for names distinct without case, every run that returns leaves the
headers rendered and sends them if and only if the run is a repeated one or no header contains
an expression; other names are never all sent. -/
theorem headersReach_iff (times : Int32) (original : Headers) :
    (DistinctNames original →
      ((∀ (ρ : Type) (svc : Service ρ) (i : Instruction) (t : ThreadId) (s : St ρ) (result : Json),
        i.times = times → responseHeadersOf s = some original →
        (svc.execute i t s).1 = .ok result → HeadersReach svc i t s original result) ↔
      (1 < times ∨ ∀ k text, original.lookup k = some (some text) → hasExpr text = false))) ∧
    (∀ (ρ : Type) (svc : Service ρ) (i : Instruction) (t : ThreadId) (s : St ρ) (result : Json),
      HeadersReach svc i t s original result → DistinctNames original) := by
  constructor
  · intro hnames
    constructor
    · intro h
      by_contra hcond
      obtain ⟨hN, hexpr⟩ := not_or.mp hcond
      have hle : times ≤ 1 := Int32.not_lt.mp hN
      push Not at hexpr
      obtain ⟨k, text, hk, htext⟩ := hexpr
      obtain ⟨s', hrun, hheaders, hview⟩ := plain_run times original
      have hexecute : plainService.execute (plainInstruction times original) 0
          (plainState times original) = (.ok (.str "ok"), s') := by
        have hle' : (plainInstruction times original).times ≤ 1 := hle
        unfold execute
        rw [if_pos hle', hrun]
      obtain ⟨final, status, body, fields, hfinal, hrendered, -⟩ := h Unit plainService
        (plainInstruction times original) 0 (plainState times original) (.str "ok") rfl rfl
        (by rw [hexecute])
      rw [hexecute] at hfinal hrendered
      obtain rfl := Option.some.inj (hheaders.symm.trans hfinal)
      rw [hview] at hrendered
      exact not_rendered_plain hk (by simpa using htext) hrendered
    · rintro hcond ρ svc i t s result rfl horiginal hok
      obtain ⟨final, hfinal, honce, hrepeated⟩ := execute_headers horiginal hok
      obtain ⟨status, body, hanswer⟩ := answer_fields svc.host t result hfinal
      have hrendered : Rendered svc.host ((svc.execute i t s).2.ctx.view t) original final := by
        by_cases hi : i.times ≤ 1
        · rw [honce hi]
          refine rendered_literal _ _ (svc.execute i t s).2.world.rand ?_
          rcases hcond with hN | hliteral
          · exact absurd hi (Int32.not_le.mpr hN)
          · exact hliteral
        · exact hrepeated hi
      exact ⟨final, status, body, httpHeaders final, hfinal, hrendered, hanswer,
        (sends_iff final).mpr (hrendered.distinct.mpr hnames)⟩
  · rintro ρ svc i t s result ⟨final, status, body, fields, hfinal, hrendered, hanswer, hsends⟩
    obtain ⟨status', body', hanswer'⟩ := answer_fields svc.host t result hfinal
    rw [hanswer'] at hanswer
    obtain rfl : httpHeaders final = fields :=
      (Prod.mk.inj (Prod.mk.inj (Except.ok.inj hanswer)).2).2
    exact hrendered.distinct.mp ((sends_iff final).mp hsends)

/-- A single execution sends a template. -/
theorem template_sent :
    ¬ ∀ (ρ : Type) (svc : Service ρ) (i : Instruction) (t : ThreadId) (s : St ρ) (original : Headers)
      (result : Json), responseHeadersOf s = some original → (svc.execute i t s).1 = .ok result →
        HeadersReach svc i t s original result := by
  intro h
  obtain ⟨original, horiginal⟩ : ∃ original : Headers, original =
    AList.insert "X-Status" (some "\x7b\x7bstatusCode()\x7d\x7d") ∅ := ⟨_, rfl⟩
  have hk : original.lookup "X-Status" = some (some "\x7b\x7bstatusCode()\x7d\x7d") := by
    rw [horiginal]
    exact AList.lookup_insert ∅
  obtain ⟨s', hrun, hheaders, hview⟩ := plain_run 1 original
  have hexecute : plainService.execute (plainInstruction 1 original) 0 (plainState 1 original) =
      (.ok (.str "ok"), s') := hrun
  obtain ⟨final, status, body, fields, hfinal, hrendered, -⟩ := h Unit plainService
    (plainInstruction 1 original) 0 (plainState 1 original) original (.str "ok") rfl
    (by rw [hexecute])
  rw [hexecute] at hfinal hrendered
  obtain rfl := Option.some.inj (hheaders.symm.trans hfinal)
  rw [hview] at hrendered
  exact not_rendered_plain hk (by decide) hrendered

end Service

end Powerful
