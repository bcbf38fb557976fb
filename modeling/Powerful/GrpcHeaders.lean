import Mathlib
import Powerful.Model

/-! # The shared headers of the gRPC client

`GrpcRemoteInvoker.invoke` hands the headers of a trace node over through one map that all
invocations of the process share: it puts them there (`addCustomizeHeaders`), and the
interceptor moves whatever it finds in the map to the metadata of the next call that starts
(`start`), no matter which invocation put it there.  An invocation whose target has no stub,
or is no gRPC target at all, leaves its headers behind.

A run is a list of events of arbitrarily many invocations, in any order that the code of
each invocation allows (`step`, `run`).  `step_inv` and `run_inv` carry the invariant `Inv`
through the runs in which every invocation fills the map alone (`Alone`);
`started_metadata_eq` is the result for the metadata of the started calls. -/

namespace Powerful

/-- One invocation: the headers of its node and the name it calls. -/
structure GrpcCall where
  headers : Headers
  beanName : String

/-- What the process decides: which stubs it has, and which names are metadata keys. -/
structure GrpcClient where
  hasStubA : Bool
  hasStubB : Bool
  legalKey : String → Bool

/-- Where an invocation stands: before it fills the map, behind that, or at its end. -/
inductive Phase where
  | waiting
  | filled
  | ended
deriving DecidableEq

/-- The interceptor's map, the phases, and the metadata of the calls started so far. -/
structure GrpcState (ι : Type) where
  customizeHeaders : Headers := ∅
  phase : ι → Phase := fun _ => .waiting
  started : List (ι × Headers) := []

inductive GrpcEvent (ι : Type) where
  | add (i : ι)
  | start (i : ι)
  | leave (i : ι)

def equalsIgnoreCase (s t : String) : Bool :=
  s.toList.map Char.toLower = t.toList.map Char.toLower

namespace GrpcClient
variable (client : GrpcClient)

/-- Whether a call is made for a name. -/
def calls (beanName : String) : Bool :=
  (equalsIgnoreCase beanName "grpc-a" && client.hasStubA) ||
    (equalsIgnoreCase beanName "grpc-b" && client.hasStubB)

/-- Whether a header can be put into metadata: `Metadata.Key.of` checks the name, `put` the
value. -/
def attachable (headers : Headers) : Bool :=
  headers.entries.all (fun e => client.legalKey e.1 && e.2.isSome)

variable {ι : Type} [DecidableEq ι] (node : ι → GrpcCall)

/-- One step of the process, if the invocation stands before it. -/
def step : GrpcEvent ι → GrpcState ι → Option (GrpcState ι)
  | .add i, s =>
      if s.phase i = .waiting then
        some { s with customizeHeaders := s.customizeHeaders.putAll (node i).headers
                      phase := Function.update s.phase i .filled }
      else none
  | .start i, s =>
      if s.phase i = .filled ∧ client.calls (node i).beanName then
        if client.attachable s.customizeHeaders then
          some { customizeHeaders := ∅
                 phase := Function.update s.phase i .ended
                 started := s.started ++ [(i, s.customizeHeaders)] }
        else some { s with phase := Function.update s.phase i .ended }
      else none
  | .leave i, s =>
      if s.phase i = .filled ∧ ¬ client.calls (node i).beanName then
        some { s with phase := Function.update s.phase i .ended }
      else none

def run : List (GrpcEvent ι) → GrpcState ι → Option (GrpcState ι)
  | [], s => some s
  | e :: es, s => (client.step node e s).bind (run es)

/-- The step fills the map alone: no other invocation stands between filling the map and its
end, and a header left behind has a name that is put again. -/
def Alone (s : GrpcState ι) : GrpcEvent ι → Prop
  | .add i => (∀ j, s.phase j ≠ .filled) ∧ ∀ k ∈ s.customizeHeaders, k ∈ (node i).headers
  | _ => True

/-- Every step of the run fills the map alone. -/
def AllAlone : List (GrpcEvent ι) → GrpcState ι → Prop
  | [], _ => True
  | e :: es, s => Alone node s e ∧ ∀ s', client.step node e s = some s' → AllAlone es s'

instance [Fintype ι] (s : GrpcState ι) : ∀ e, Decidable (Alone node s e)
  | .add i => inferInstanceAs (Decidable
      ((∀ j, s.phase j ≠ .filled) ∧ ∀ k ∈ s.customizeHeaders.keys, k ∈ (node i).headers))
  | .start _ => isTrue True.intro
  | .leave _ => isTrue True.intro

theorem allAlone_cons_of_none {e : GrpcEvent ι} {s : GrpcState ι} (hstep : client.step node e s = none)
    (es : List (GrpcEvent ι)) : client.AllAlone node (e :: es) s ↔ Alone node s e :=
  ⟨And.left, fun h => ⟨h, fun s' hs' => by rw [hstep] at hs'; cases hs'⟩⟩

theorem allAlone_cons_of_some {e : GrpcEvent ι} {s t : GrpcState ι} (hstep : client.step node e s = some t)
    (es : List (GrpcEvent ι)) :
    client.AllAlone node (e :: es) s ↔ Alone node s e ∧ client.AllAlone node es t := by
  refine and_congr_right fun _ => ⟨fun h => h t hstep, fun h s' hs' => ?_⟩
  obtain rfl := Option.some.inj (hstep.symm.trans hs')
  exact h

instance decidableAllAlone [Fintype ι] : ∀ (es : List (GrpcEvent ι)) (s : GrpcState ι),
    Decidable (client.AllAlone node es s)
  | [], _ => isTrue True.intro
  | e :: es, s => match hstep : client.step node e s with
    | none => decidable_of_iff _ (client.allAlone_cons_of_none node hstep es).symm
    | some t =>
        have := decidableAllAlone es t
        decidable_of_iff _ (client.allAlone_cons_of_some node hstep es).symm

/-- Two header maps with the same entries. -/
def SameHeaders (m n : Headers) : Prop := ∀ k, m.lookup k = n.lookup k

/-- The map of an invocation that has filled it is its own, and so was that of every started
call. -/
structure Inv (s : GrpcState ι) : Prop where
  alone : ∀ i, s.phase i = .filled → ∀ j, s.phase j = .filled → j = i
  own : ∀ i, s.phase i = .filled → SameHeaders s.customizeHeaders (node i).headers
  metadata : ∀ p ∈ s.started, SameHeaders p.2 (node p.1).headers

theorem putAll_sameHeaders {m n : Headers} (h : ∀ k ∈ m, k ∈ n) : SameHeaders (m.putAll n) n := by
  intro k
  by_cases hk : k ∈ n
  · exact StringMap.lookup_putAll_of_mem hk
  · have hm : k ∉ m := fun hm => hk (h k hm)
    rw [StringMap.lookup_putAll_of_notMem hk, AList.lookup_eq_none.mpr hm,
      AList.lookup_eq_none.mpr hk]

/-- When an invocation ends, the others stand where they stood. -/
theorem phase_of_ended {s : GrpcState ι} {i j : ι}
    (h : Function.update s.phase i .ended j = .filled) : s.phase j = .filled ∧ j ≠ i := by
  by_cases hj : j = i
  · rw [hj, Function.update_self] at h
    cases h
  · rw [Function.update_of_ne hj] at h
    exact ⟨h, hj⟩

/-- **Step.** -/
theorem step_inv {s s' : GrpcState ι} {e : GrpcEvent ι} (hinv : Inv node s) (halone : Alone node s e)
    (h : client.step node e s = some s') : Inv node s' := by
  cases e with
  | add i =>
      simp only [step, Option.ite_none_right_eq_some, Option.some.injEq] at h
      obtain ⟨-, rfl⟩ := h
      obtain ⟨hnone, hkeys⟩ := halone
      have hphase : ∀ j, Function.update s.phase i .filled j = .filled → j = i := by
        intro j hj
        by_contra hne
        rw [Function.update_of_ne hne] at hj
        exact hnone j hj
      constructor
      · intro j hj k hk
        rw [hphase j hj, hphase k hk]
      · intro j hj
        rw [hphase j hj]
        exact putAll_sameHeaders hkeys
      · exact hinv.metadata
  | start i =>
      simp only [step, Option.ite_none_right_eq_some] at h
      obtain ⟨⟨hi, -⟩, h⟩ := h
      split at h
      · obtain rfl := Option.some.inj h
        constructor
        · intro j hj k hk
          exact hinv.alone j (phase_of_ended hj).1 k (phase_of_ended hk).1
        · intro j hj
          obtain ⟨hj, hne⟩ := phase_of_ended hj
          exact absurd (hinv.alone i hi j hj) hne
        · intro p hp
          rw [List.mem_append, List.mem_singleton] at hp
          rcases hp with hp | rfl
          · exact hinv.metadata p hp
          · exact hinv.own i hi
      · obtain rfl := Option.some.inj h
        constructor
        · intro j hj k hk
          exact hinv.alone j (phase_of_ended hj).1 k (phase_of_ended hk).1
        · intro j hj
          exact hinv.own j (phase_of_ended hj).1
        · exact hinv.metadata
  | leave i =>
      simp only [step, Option.ite_none_right_eq_some, Option.some.injEq] at h
      obtain ⟨-, rfl⟩ := h
      constructor
      · intro j hj k hk
        exact hinv.alone j (phase_of_ended hj).1 k (phase_of_ended hk).1
      · intro j hj
        exact hinv.own j (phase_of_ended hj).1
      · exact hinv.metadata

/-- **Run.** -/
theorem run_inv {events : List (GrpcEvent ι)} :
    ∀ {s s' : GrpcState ι}, Inv node s → client.AllAlone node events s →
      client.run node events s = some s' → Inv node s' := by
  induction events with
  | nil =>
      intro s s' hinv _ h
      obtain rfl := Option.some.inj h
      exact hinv
  | cons e es ih =>
      intro s s' hinv halone h
      obtain ⟨t, ht, hrun⟩ := Option.bind_eq_some_iff.mp h
      exact ih (client.step_inv node hinv halone.1 ht) (halone.2 t ht) hrun

omit [DecidableEq ι] in
theorem inv_initial : Inv node ({} : GrpcState ι) := by
  constructor
  · intro i hi
    cases hi
  · intro i hi
    cases hi
  · intro p hp
    cases hp

/-- **Metadata isolation**: in every run whose steps fill the map alone, the metadata of each
started call are the headers of its own node. -/
theorem started_metadata_eq {events : List (GrpcEvent ι)} {s : GrpcState ι}
    (halone : client.AllAlone node events {}) (hrun : client.run node events {} = some s) :
    ∀ p ∈ s.started, SameHeaders p.2 (node p.1).headers :=
  (client.run_inv node (inv_initial node) halone hrun).metadata

/-- A process with both stubs. -/
def sample : GrpcClient := ⟨true, true, fun _ => true⟩

/-- An invocation of `beanName` with the one header `k: v`. -/
def sampleCall (beanName k v : String) : GrpcCall := ⟨AList.singleton k (some v), beanName⟩

/-- Two invocations with different headers, one of an unknown name that leaves its header behind, and
one that sets the name left behind again. -/
def fourCalls : Fin 4 → GrpcCall
  | 0 => sampleCall "grpc-a" "color" "red"
  | 1 => sampleCall "grpc-b" "user" "ann"
  | 2 => sampleCall "grpc-x" "color" "green"
  | 3 => sampleCall "grpc-a" "color" "blue"

def fourEvents : List (GrpcEvent (Fin 4)) :=
  [.add 0, .start 0, .add 1, .start 1, .add 2, .leave 2, .add 3, .start 3]

theorem started_metadata_eq_sample : ∃ s, sample.run fourCalls fourEvents {} = some s ∧
    s.started.map Prod.fst = [0, 1, 3] ∧ ∀ p ∈ s.started, SameHeaders p.2 (fourCalls p.1).headers := by
  have halone : sample.AllAlone fourCalls fourEvents {} := by decide
  exact ⟨_, rfl, rfl, sample.started_metadata_eq fourCalls halone rfl⟩

/-- Two concurrent invocations, of which the first that starts takes the headers of both, and an
invocation of an unknown name, whose header goes out with the next call. -/
theorem started_metadata_ne :
    (∃ events s, sample.run (fun i : Bool => if i then sampleCall "grpc-a" "color" "red" else
        sampleCall "grpc-b" "user" "ann") events {} = some s ∧
      ∃ p ∈ s.started, ¬ SameHeaders p.2
        (if p.1 then sampleCall "grpc-a" "color" "red" else sampleCall "grpc-b" "user" "ann").headers) ∧
    (∃ events s, sample.run (fun i : Bool => if i then sampleCall "grpc-x" "color" "red" else
        sampleCall "grpc-b" "user" "ann") events {} = some s ∧
      ∃ p ∈ s.started, ¬ SameHeaders p.2
        (if p.1 then sampleCall "grpc-x" "color" "red" else sampleCall "grpc-b" "user" "ann").headers) := by
  constructor
  · refine ⟨[.add true, .add false, .start true, .start false], _, rfl,
      (true, StringMap.putAll (StringMap.putAll ∅ (sampleCall "grpc-a" "color" "red").headers)
        (sampleCall "grpc-b" "user" "ann").headers), List.mem_cons_self, ?_⟩
    intro h
    exact absurd (h "user") (by decide)
  · refine ⟨[.add true, .leave true, .add false, .start false], _, rfl,
      (false, StringMap.putAll (StringMap.putAll ∅ (sampleCall "grpc-x" "color" "red").headers)
        (sampleCall "grpc-b" "user" "ann").headers), List.mem_cons_self, ?_⟩
    intro h
    exact absurd (h "color") (by decide)

end GrpcClient

end Powerful
