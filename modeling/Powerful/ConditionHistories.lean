import Mathlib
import Powerful.ReconcileReports

/-! # The history of a condition

A status keeps of each type the last condition and the time of its last transition.  `current` reads
both off the calls about the type alone, latest first: the condition is that of the last call, unless
that removed it, and its time is that of the first call of the unbroken series with its status.

`conditions_history` says that a status has exactly these conditions after any calls, whatever types
they are about and however often a condition is set again. -/

namespace Powerful.Helm

open HelmAppStatus

def Call.type : Call → String
  | set _ c => c.type
  | remove type => type

/-- The time of a condition that is set at `now`, by the one before: it stays as long as the status does. -/
def transition (now : Time) (status : String) (before : Option HelmAppCondition) : Time :=
  (before.filter fun d => d.status = status).elim now HelmAppCondition.lastTransitionTime

/-- Since when a condition that is set at `now` has its status, by the calls before, latest first.
`old` is the condition before all calls. -/
def since (old : Option HelmAppCondition) (status : String) (now : Time) : List Call → Time
  | [] => transition now status old
  | .set t d :: earlier => if d.status = status then since old status t earlier else now
  | .remove _ :: _ => now

def current (old : Option HelmAppCondition) : List Call → Option HelmAppCondition
  | [] => old
  | .set now c :: earlier => some { c with lastTransitionTime := since old c.status now earlier }
  | .remove _ :: _ => none

theorem transition_some (now : Time) (status : String) (d : HelmAppCondition) :
    transition now status (some d) = if d.status = status then d.lastTransitionTime else now := by
  unfold transition
  rw [Option.filter_some]
  by_cases h : d.status = status <;> simp [h]

/-- The series goes on from what the calls before have left. -/
theorem since_eq_transition (old : Option HelmAppCondition) (status : String) (now : Time)
    (earlier : List Call) : since old status now earlier = transition now status (current old earlier) := by
  cases earlier with
  | nil => rfl
  | cons call earlier =>
      cases call with
      | remove type => rfl
      | set t d =>
          rw [since, current, transition_some]
          by_cases h : d.status = status
          · subst h
            rw [if_pos rfl]
          · rw [if_neg h]
            exact (if_neg h).symm

/-! ### One call -/

theorem find?_replaced {now : Time} {c : HelmAppCondition} : ∀ {cs cs' : List HelmAppCondition},
    replaceCondition now c cs = some cs' → cs'.find? (fun d => d.type = c.type) =
      some { c with lastTransitionTime := transition now c.status (cs.find? fun d => d.type = c.type) }
  | d :: ds, cs', h => by
      rw [replaceCondition] at h
      split at h
      · rename_i htype
        obtain rfl := Option.some.inj h
        rw [List.find?_cons_of_pos (by simp), List.find?_cons_of_pos (by simpa using htype)]
        rw [transition_some, ite_not]
      · rename_i htype
        obtain ⟨ds', hds, rfl⟩ := Option.map_eq_some_iff.mp h
        rw [List.find?_cons_of_neg (by simpa using htype), List.find?_cons_of_neg (by simpa using htype)]
        exact find?_replaced hds

theorem condition?_set (s : HelmAppStatus) (now : Time) (c : HelmAppCondition) :
    condition? c.type (s.setCondition now c) =
      some { c with lastTransitionTime := transition now c.status (condition? c.type s) } := by
  unfold setCondition
  split
  · rename_i cs hreplace
    exact find?_replaced hreplace
  · rename_i hnone
    have hother : s.conditions.find? (fun d => d.type = c.type) = none := by
      simpa using replaceCondition_none hnone
    rw [condition?_updateStatusString, condition?, List.find?_append, condition?, hother,
      List.find?_cons_of_pos (by simp)]
    rfl

theorem Typed.apply {s : HelmAppStatus} (hs : s.Typed) : ∀ call : Call, (call.apply s).Typed
  | .set now c => hs.setCondition now c
  | .remove type => hs.removeCondition type

/-- A call is the latest one about its type. -/
theorem condition?_apply {s : HelmAppStatus} (hs : s.Typed) {old : Option HelmAppCondition}
    {earlier : List Call} {call : Call} (hearlier : condition? call.type s = current old earlier) :
    condition? call.type (call.apply s) = current old (call :: earlier) := by
  cases call with
  | set now c =>
      show condition? c.type (s.setCondition now c) = current old (.set now c :: earlier)
      rw [condition?_set, current, since_eq_transition, ← hearlier]
      rfl
  | remove type => exact hs.condition?_removeCondition_self type

theorem condition?_apply_ne (s : HelmAppStatus) {type : String} :
    ∀ {call : Call}, type ≠ call.type → condition? type (call.apply s) = condition? type s
  | .set now c, h => s.condition?_setCondition_ne now c h
  | .remove _, h => s.condition?_removeCondition_ne h

/-! ### Any calls -/

/-- **History**: after any calls no two conditions have the same type, and there is a condition of a
type exactly if the last call about it has set one; that is the condition, and the time of its last
transition is the time of the first one of the calls that have set it to its status ever since. -/
theorem conditions_history {s : HelmAppStatus} (hs : s.Typed) (calls : List Call) :
    (calls.foldl Call.apply s).Typed ∧ ∀ type, condition? type (calls.foldl Call.apply s) =
      current (condition? type s) (calls.filter fun call => call.type = type).reverse := by
  induction calls using List.reverseRecOn with
  | nil => exact ⟨hs, fun _ => rfl⟩
  | append_singleton calls call ih =>
      obtain ⟨htyped, hcurrent⟩ := ih
      rw [List.foldl_append, List.foldl_cons, List.foldl_nil]
      refine ⟨Typed.apply htyped call, fun type => ?_⟩
      rw [List.filter_append, List.reverse_append]
      by_cases htype : call.type = type
      · subst htype
        rw [List.filter_cons_of_pos (by simp), List.filter_nil, List.reverse_singleton,
          List.singleton_append]
        exact condition?_apply htyped (hcurrent call.type)
      · rw [List.filter_cons_of_neg (by simpa using htype), List.filter_nil, List.reverse_nil,
          List.nil_append, condition?_apply_ne _ (Ne.symm htype)]
        exact hcurrent type

/-- An install that fails twice, with a sync in between that fails for another reason. -/
def failingCalls : List Call :=
  [.set 1 { type := "ReleaseFailed", status := "True", reason := "InstallError", message := "a" },
    .set 2 failedSync,
    .set 3 { type := "ReleaseFailed", status := "True", reason := "InstallError", message := "b" },
    .remove "Irreconcilable"]

theorem conditions_history_sample :
    condition? "ReleaseFailed" (failingCalls.foldl Call.apply {}) =
      some { type := "ReleaseFailed", status := "True", reason := "InstallError", message := "b",
             lastTransitionTime := 1 } :=
  (conditions_history (s := {}) List.nodup_nil failingCalls).2 "ReleaseFailed"

end Powerful.Helm
