import Mathlib
import Powerful.Iterations

/-! # Substituted instructions

An iteration of a request with `rr` works through a copy of the instruction, on nodes of its own.
`Substituted` says which copy that is: every field that `rr` names has the value that is due in the
iteration.  `Replaced.get?_named` and `Replaced.get?_apart` say what is read at the places of the
copy, and `processLoop_iff` that the service makes this copy.

The copy still has its `rr`.  `doExecuteSingle_withoutRr` says when that does not matter, and
`doExecuteSingle_private` when two iterations that work through one copy do the same. -/

namespace Powerful

open Resumption Prog

variable {ρ : Type}

namespace Service

/-! ### The substituted instruction -/

/-- The tree in which the places that the entries name have their values for iteration `n`: value
number `n`, modulo the number of values. -/
inductive Replaced (n : ℕ) : List (Sigma fun _ : String => Option (List Json)) → Json → Json → Prop
  | nil (j : Json) : Replaced n [] j j
  | cons {key : String} {vs : List Json} {es : List (Sigma fun _ : String => Option (List Json))}
      {path : List String} {v j j' j'' : Json} (hpath : pointer key = some path)
      (hvalue : vs[n % vs.length]? = some v) (hreplace : Json.replace false path v j = some j')
      (hrest : Replaced n es j' j'') : Replaced n (⟨key, some vs⟩ :: es) j j''

/-- `copy` is the instruction in which every field that `rr` names has its value for iteration
`n`. -/
def Substituted (h : Host ρ) (i : Instruction) (n : ℕ) (copy : Instruction) : Prop :=
  ∃ rr, i.rr = some rr ∧
    if rr.entries = [] then copy = i
    else ∃ tree, Replaced n rr.entries i.toJson tree ∧ decodeRequestCase h false tree = .ok copy

section substituted
variable {n : ℕ} {es before after : List (Sigma fun _ : String => Option (List Json))} {j j' : Json}

/-- The place of no entry has changed. -/
theorem Replaced.get?_apart (h : Replaced n es j j') {path : List String}
    (hapart : ∀ e ∈ es, ∀ path', pointer e.1 = some path' → Json.Apart path' path) :
    Json.get? path j' = Json.get? path j := by
  induction h with
  | nil => rfl
  | cons hpath _ hreplace _ ih =>
      obtain ⟨hhead, htail⟩ := List.forall_mem_cons.mp hapart
      rw [ih htail, Json.get?_replace_apart (hhead _ hpath) hreplace]

/-- The place of an entry has its value, if no later entry replaces it. -/
theorem Replaced.get?_named {key : String} {vs : List Json}
    (h : Replaced n (before ++ ⟨key, some vs⟩ :: after) j j') {path : List String}
    (hpath : pointer key = some path)
    (hapart : ∀ e ∈ after, ∀ path', pointer e.1 = some path' → Json.Apart path' path) :
    ∃ v, vs[n % vs.length]? = some v ∧ Json.get? path j' = some v := by
  induction before generalizing j with
  | nil =>
      obtain _ | ⟨hpath', hvalue, hreplace, hrest⟩ := h
      obtain rfl := Option.some.inj (hpath.symm.trans hpath')
      exact ⟨_, hvalue, (hrest.get?_apart hapart).trans (Json.get?_replace hreplace)⟩
  | cons e before ih =>
      obtain _ | ⟨-, -, -, hrest⟩ := h
      exact ih hrest

theorem applyPatches_iff : (∃ ps, rrPatches n es = .ok ps ∧ applyPatches ps j = .ok j') ↔ Replaced n es j j' := by
  induction es generalizing j with
  | nil =>
      constructor
      · rintro ⟨ps, hps, hj⟩
        obtain rfl := Except.ok.inj hps
        obtain rfl := Except.ok.inj hj
        exact .nil j
      · intro h
        cases h
        exact ⟨[], rfl, rfl⟩
  | cons e es ih =>
      obtain ⟨key, values⟩ := e
      constructor
      · rintro ⟨ps, hps, hj⟩
        unfold rrPatches at hps
        obtain ⟨v, hv, hps⟩ := ok_of_bind hps
        obtain ⟨rest, hrest, hps⟩ := ok_of_bind hps
        obtain rfl := Except.ok.inj hps
        unfold rrValue at hv
        cases values with
        | none => cases hv
        | some vs =>
            simp only at hv
            split at hv
            · cases hv
            · rename_i v' hvalue
              obtain rfl := Except.ok.inj hv
              unfold applyPatches at hj
              split at hj
              · cases hj
              · rename_i path hpath
                split at hj
                · cases hj
                · rename_i j₁ hreplace
                  exact .cons hpath hvalue hreplace (ih.mp ⟨rest, hrest, hj⟩)
      · intro h
        cases h with
        | @cons _ vs _ path v _ j₁ _ hpath hvalue hreplace hrest =>
        obtain ⟨ps, hps, hj⟩ := ih.mpr hrest
        refine ⟨(key, v) :: ps, ?_, ?_⟩
        · unfold rrPatches rrValue rrPosition
          simp only [hvalue, hps]
          rfl
        · unfold applyPatches
          simp only [hpath, hreplace, hj]

/-- The service makes this copy, and no other one. -/
theorem processLoop_iff {svc : Service ρ} {i copy : Instruction} :
    svc.processLoop i n = .ok copy ↔ Substituted svc.host i n copy := by
  unfold processLoop Substituted
  cases hrr : i.rr with
  | none =>
      constructor
      · intro h
        cases h
      · rintro ⟨rr, h, -⟩
        cases h
  | some rr =>
      simp only [Option.some.injEq, exists_eq_left']
      split
      · constructor
        · intro h
          exact (Except.ok.inj h).symm
        · rintro rfl
          rfl
      · constructor
        · intro h
          obtain ⟨ps, hps, h⟩ := ok_of_bind h
          obtain ⟨tree, htree, h⟩ := ok_of_bind h
          refine ⟨tree, applyPatches_iff.mp ⟨ps, hps, htree⟩, ?_⟩
          split at h
          · rename_i copy' hread
            obtain rfl := Except.ok.inj h
            exact hread
          · cases h
        · rintro ⟨tree, hreplaced, hread⟩
          obtain ⟨ps, hps, htree⟩ := applyPatches_iff.mpr hreplaced
          simp only [hps, htree, hread, Bind.bind, Except.bind]

end substituted

/-! ### What is carried to the next hop -/

/-- The instruction without `rr`. -/
def withoutRr (i : Instruction) : Instruction := { i with rr := some ∅ }

theorem withoutRr_eq_self {i : Instruction} (h : i.rr.map AList.entries = some []) : withoutRr i = i := by
  obtain ⟨rr, hrr, hempty⟩ := Option.map_eq_some_iff.mp h
  obtain rfl : rr = ∅ := AList.ext hempty
  unfold withoutRr
  rw [← hrr]

/-- An iteration may send a request: it need not fail before the call of the next node, and there is
a context in `C` in which that call renders to a text. -/
structure Sends (svc : Service ρ) (C : View → Prop) (node : PowerTraceNode) (rest : List PowerTraceNode) :
    Prop where
  method : ∀ m, node.callTestMethod = some m → m ≠ 0 → ¬ (100 < m ∨ m < 0)
  percent : ∃ percent, node.errorByPercent = some percent ∧ percent.toInt < 100
  code : node.code = 200
  called : ∃ n tail invoker, rest = n :: tail ∧ (callBy n).bind svc.invokers = some invoker ∧
    ∃ v r text r', C v ∧ renderNullable svc.host v (callText n) r = (.ok text, r') ∧ isEmpty text = false

section carried
variable {svc : Service ρ} {d : Delivery} {node : PowerTraceNode} {rest : List PowerTraceNode}
  {headers : Headers}
variable {M M' : Headers → Prop} {N N' : List PowerTraceNode → Prop}

/-- What a run keeps, from a comparison of the run with itself. -/
theorem Begun.keeps {α : Type} {E E' : Slot → Slot → Prop} {S : Except Exc α → St ρ → St ρ → Prop}
    {p : Run ρ α} (hp : Couples (Alike d node M N E) S p p) (hE : ∀ x, E x x)
    (hS : ∀ o s u, S o s u → Alike d node M' N' E' s u) {s s' : St ρ} {o : Except Exc α}
    (hs : Begun d node M N s) (hrun : p.run s = (o, s')) : Begun d node M' N' s' := by
  have hend := (hS _ _ _ (hp s s ⟨rfl, hs, hs, hE _⟩).2).left
  rw [hrun] at hend
  exact hend

theorem invokeTestMethod_ok {t : ThreadId} {s s' : St ρ}
    (h : (svc.invokeTestMethod t node).run s = (.ok (), s')) :
    ∀ m, node.callTestMethod = some m → m ≠ 0 → ¬ (100 < m ∨ m < 0) := by
  intro m hm hne hillegal
  unfold invokeTestMethod at h
  rw [hm] at h
  simp only [if_neg hne, if_pos hillegal] at h
  cases h

theorem errorByPercent_ok {s s' : St ρ} (h : (svc.errorByPercent node).run s = (.ok (), s')) :
    ∃ percent, node.errorByPercent = some percent ∧ percent.toInt < 100 := by
  unfold errorByPercent at h
  cases hpercent : node.errorByPercent with
  | none =>
      rw [hpercent] at h
      cases h
  | some percent =>
      refine ⟨percent, rfl, ?_⟩
      rw [hpercent] at h
      simp only at h
      by_cases hpos : 0 < percent
      · rw [if_pos hpos] at h
        obtain ⟨k, s₁, hdraw, h⟩ := run_bind_inv h
        unfold draw at hdraw
        rw [run_atomic] at hdraw
        obtain rfl := Except.ok.inj (Prod.mk.inj hdraw).1
        have hlt := svc.host.nextIntBelow_lt 100 s.world.rand (by decide)
        by_cases hk : ((svc.host.nextIntBelow 100 s.world.rand).1 : ℤ) < percent.toInt
        · rw [if_pos hk] at h
          cases h
        · omega
      · have hle : percent.toInt ≤ 0 := by
          rw [Int32.lt_iff_toInt_lt] at hpos
          exact not_lt.mp hpos
        omega

theorem code_ok {s s' : St ρ} (h : (svc.code node).run s = (.ok (), s')) : node.code = 200 := by
  by_contra hcode
  unfold code at h
  rw [if_neg hcode] at h
  split at h
  · cases h
  · cases h

/-- An instruction works as it does without `rr`, if it has none or sends nothing in the contexts that
rendering the headers leaves. -/
theorem doExecuteSingle_withoutRr {C : View → Prop}
    (hrender : Leads (Begun d node M fun ns => ns = rest) (Begun d node M' fun ns => ns = rest)
      (svc.renderHeaders d.thread))
    (hview : ∀ s : St ρ, Begun d node M' (fun ns => ns = rest) s → C (s.ctx.view d.thread))
    {copy : Instruction} (hcarries : copy.rr.map AList.entries = some [] ∨ ¬ Sends svc C node rest) {s : St ρ}
    (hs : Begun d node M (fun ns => ns = rest) s) :
    (svc.doExecuteSingle copy d.thread).run s = (svc.doExecuteSingle (withoutRr copy) d.thread).run s := by
  rcases hcarries with hempty | hsilent
  · rw [withoutRr_eq_self hempty]
  have hE : ∀ x : Slot, x = x := fun _ => rfl
  show (propagateHeaders copy >>= _).run s = (propagateHeaders copy >>= _).run s
  refine run_bind_congr fun _ s₁ h₁ => run_bind_congr fun _ s₂ h₂ => ?_
  have hs₁ := Begun.keeps (propagateHeaders_alike copy) hE (fun _ _ _ h => h.2) hs h₁
  have hs₂ := hrender s₁ hs₁
  rw [h₂] at hs₂
  obtain ⟨own, ns, hnodes, -⟩ := hs₂.nodes
  rw [run_bind_ok (run_read _ s₂), run_bind_ok (run_read _ s₂), hnodes]
  show (svc.invokeTestMethod d.thread node >>= _).run s₂ = (svc.invokeTestMethod d.thread node >>= _).run s₂
  refine run_bind_congr fun _ s₃ h₃ => run_bind_congr fun _ s₄ h₄ => run_bind_congr fun _ s₅ h₅ =>
    run_bind_congr fun _ s₆ h₆ => ?_
  have hs₃ := Begun.keeps (invokeTestMethod_alike (P := False)) (fun _ => Or.inr rfl) (fun _ _ _ h => h) hs₂ h₃
  have hs₄ := Begun.keeps (delay_alike _) hE (fun _ _ _ h => h.2) hs₃ h₄
  have hs₅ := Begun.keeps (errorByPercent_alike _) hE (fun _ _ _ h => h) hs₄ h₅
  have hs₆ := Begun.keeps (code_alike _) hE (fun _ _ _ h => h.2) hs₅ h₆
  obtain ⟨own₆, ns₆, hnodes₆, rfl⟩ := hs₆.nodes
  unfold call
  rw [run_bind_ok (run_read _ s₆), run_bind_ok (run_read _ s₆), hnodes₆]
  cases ns₆ with
  | nil => rfl
  | cons n tail =>
      show (svc.callNext copy d.thread).run s₆ = (svc.callNext (withoutRr copy) d.thread).run s₆
      rw [callNext_eq copy d.thread hnodes₆, callNext_eq (withoutRr copy) d.thread hnodes₆]
      cases hinvoker : (callBy n).bind svc.invokers with
      | none => rfl
      | some invoker =>
          dsimp only
          cases hcall : renderNullable svc.host (s₆.ctx.view d.thread) (callText n) s₆.world.rand with
          | mk out r =>
              cases out with
              | error e => rfl
              | ok text =>
                  cases hempty : isEmpty text with
                  | true => simp only [hempty, if_true]
                  | false =>
                      exact absurd ⟨invokeTestMethod_ok h₃, errorByPercent_ok h₅, code_ok h₆, n, tail, invoker, rfl,
                        hinvoker, _, _, text, r, hview _ hs₆, hcall, hempty⟩ hsilent

/-- The call of the next node and its invoker see only the request and what the called method has
returned. -/
structure SeesOnlyRequest (svc : Service ρ) (d : Delivery) (headers : Headers) (i : Instruction)
    (rest : List PowerTraceNode) : Prop where
  call : ∀ n, rest.head? = some n → ∀ v v' r, WithHeaders d headers v → WithHeaders d headers v' →
    v.SameRequest v' → renderNullable svc.host v (callText n) r = renderNullable svc.host v' (callText n) r
  invoker : ∀ n invoker text, rest.head? = some n → (callBy n).bind svc.invokers = some invoker →
    isEmpty text = false → ∀ v v' w, v.SameRequest v' →
      invoker (sentNext i rest text) v w = invoker (sentNext i rest text) v' w

/-- In every context of the request the call of the next node renders to a text, if it renders. -/
def AlwaysCalls (svc : Service ρ) (d : Delivery) (headers : Headers) (rest : List PowerTraceNode) : Prop :=
  ∃ n tail, rest = n :: tail ∧ ∀ v r text r', WithHeaders d headers v →
    renderNullable svc.host v (callText n) r = (.ok text, r') → isEmpty text = false

variable {E E' : Slot → Slot → Prop} {P : Prop}

/-- The nodes behind the first one, whatever they are. -/
def Any (_ : List PowerTraceNode) : Prop := True

theorem callNext_private {i : Instruction} {n : PowerTraceNode} {tail : List PowerTraceNode}
    (hsees : ((callBy n).bind svc.invokers).isSome → SeesOnlyRequest svc d headers i (n :: tail)) :
    Couples (Alike d node (AllRendered headers) (fun ns => ns = n :: tail) (SameMethod P))
      (EndsAlike d node headers Any (AlwaysCalls svc d headers (n :: tail)) P)
      (svc.callNext i d.thread) (svc.callNext i d.thread) := by
  intro s u hsu
  obtain ⟨own, ns, hnodes, rfl⟩ := hsu.left.nodes
  obtain ⟨own', ns', hnodes', rfl⟩ := hsu.right.nodes
  rw [callNext_eq i d.thread hnodes, callNext_eq i d.thread hnodes']
  cases hinvoker : (callBy n).bind svc.invokers with
  | none => exact ⟨rfl, endsAlike_error (hsu.withNodes own own' trivial trivial)⟩
  | some invoker =>
      have hsees := hsees (by rw [hinvoker]; rfl)
      have hleft := withHeaders_view hsu.left
      have hsame := hsees.call n rfl _ _ s.world.rand hleft (withHeaders_view hsu.right)
        (hsu.sameRequest fun _ _ hE => hE.2)
      dsimp only
      rw [← hsu.world, ← hsame]
      cases hrender : renderNullable svc.host (s.ctx.view d.thread) (callText n) s.world.rand with
      | mk out r =>
          cases out with
          | error e => exact ⟨rfl, endsAlike_error ((hsu.withRand r).withNodes own own' trivial trivial)⟩
          | ok text =>
              dsimp only
              cases hempty : isEmpty text with
              | true =>
                  refine ⟨rfl, endsAlike_none ?_ ((hsu.withRand r).withNodes own own' trivial trivial)⟩
                  rintro ⟨n', tail', heq, hfull⟩
                  obtain ⟨rfl, -⟩ := List.cons.inj heq
                  rw [hfull _ _ _ _ hleft hrender] at hempty
                  cases hempty
              | false =>
                  exact sendAndStore_alike (fun v v' w => hsees.invoker n invoker text rfl hinvoker hempty v v' w)
                    ((hsu.withRand r).withNodes own own' trivial trivial)

theorem call_private {i : Instruction}
    (hsees : svc.Reaches node rest → SeesOnlyRequest svc d headers i rest) (hcode : node.code = 200) :
    Couples (Alike d node (AllRendered headers) (fun ns => ns = rest) (SameMethod P))
      (EndsAlike d node headers Any (AlwaysCalls svc d headers rest) P)
      (svc.call i d.thread) (svc.call i d.thread) := by
  refine Couples.readBind fun s u hsu => ?_
  obtain ⟨own, ns, hnodes, hns⟩ := hsu.left.nodes
  obtain ⟨own', ns', hnodes', hns'⟩ := hsu.right.nodes
  rw [hnodes, hnodes', hns, hns']
  cases rest with
  | nil =>
      refine ⟨rfl, endsAlike_none ?_ (hsu.mono (fun _ hm => hm) (fun _ _ => trivial) fun _ _ hE => hE)⟩
      rintro ⟨n, tail, heq, -⟩
      cases heq
  | cons n tail => exact callNext_private (fun hknown => hsees ⟨hcode, n, rfl, hknown⟩) s u hsu

/-- On private nodes two iterations do the same, if they have received the same. -/
theorem doExecuteSingle_private (hheaders : HeadersSettle svc d headers) {i : Instruction}
    (hsees : svc.Reaches node rest → SeesOnlyRequest svc d headers i rest) :
    Couples (Alike d node (Mixed d headers) (fun ns => ns = rest) (SameResponse P))
      (EndsAlike d node headers Any (AlwaysCalls svc d headers rest) P)
      (svc.doExecuteSingle i d.thread) (svc.doExecuteSingle i d.thread) :=
  doExecuteSingle_endsAlike hheaders (fun _ _ => trivial) fun hcode => call_private hsees hcode

end carried

end Service

end Powerful
