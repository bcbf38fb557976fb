import Mathlib

/-! # The status of a custom resource

The operator keeps a list of conditions in the status of a custom resource, and beside it a
summary of the conditions in two texts, `status` and `statusString`.  Conditions are set and
removed by type (`setCondition`, `removeCondition`).

`summary` says what the two texts stand for, and `updateStatusString_eq` that the loop of the
source computes it.  Of the four exits of the two operations only those that find no condition
of the type update the texts.  `set_iff` and `remove_iff` say when the texts are right all the
same, and `fresh_iff` what follows for any sequence of calls. -/

namespace Powerful.Helm

/-- A point in time, in nanoseconds; 0 is the zero value of `metav1.Time`. -/
abbrev Time := ℤ

structure HelmAppCondition where
  type : String
  status : String := ""
  reason : String := ""
  message : String := ""
  lastTransitionTime : Time := 0
  deriving DecidableEq

structure HelmAppRelease where
  name : String := ""
  manifest : String := ""
  deriving DecidableEq

structure HelmAppStatus where
  conditions : List HelmAppCondition := []
  deployedRelease : Option HelmAppRelease := none
  apps : List String := []
  status : String := ""
  statusString : String := ""
  deriving DecidableEq

/-- `strings.Contains`. -/
def contains (s sub : String) : Bool := decide (sub.toList <:+: s.toList)

/-- Whether the summary names the condition. -/
def HelmAppCondition.isError (c : HelmAppCondition) : Bool := contains c.reason "Error"

/-- What `statusString` says about an error. -/
def HelmAppCondition.text (c : HelmAppCondition) : String :=
  if c.message ≠ "" then c.reason ++ (": " ++ c.message) else c.reason

namespace HelmAppStatus

/-! ### The operations -/

/-- The body of the loop in `updateStatusString`, on the texts `status` and `statusString`. -/
def addCondition (acc : String × String) (c : HelmAppCondition) : String × String :=
  if contains c.reason "Error" then
    let (status, statusString) :=
      if acc.2 = "Success" then ("", "") else (acc.1 ++ ",", acc.2 ++ ",")
    let statusString := statusString ++ c.reason
    let status := status ++ c.reason
    (status, if c.message ≠ "" then statusString ++ (": " ++ c.message) else statusString)
  else acc

def updateStatusString (s : HelmAppStatus) : HelmAppStatus :=
  let texts := s.conditions.foldl addCondition ("Success", "Success")
  { s with status := texts.1, statusString := texts.2 }

/-- Replace the first condition of the type, if there is one.  The time of the last transition
stays as it is unless the status of the condition changes. -/
def replaceCondition (now : Time) (c : HelmAppCondition) :
    List HelmAppCondition → Option (List HelmAppCondition)
  | [] => none
  | d :: ds =>
      if d.type = c.type then
        some ({ c with lastTransitionTime :=
          if d.status ≠ c.status then now else d.lastTransitionTime } :: ds)
      else (replaceCondition now c ds).map (d :: ·)

def setCondition (s : HelmAppStatus) (now : Time) (c : HelmAppCondition) : HelmAppStatus :=
  match replaceCondition now c s.conditions with
  | some conditions => { s with conditions := conditions }
  | none => updateStatusString
      { s with conditions := s.conditions ++ [{ c with lastTransitionTime := now }] }

/-- Remove the first condition of the type, if there is one. -/
def dropCondition (type : String) : List HelmAppCondition → Option (List HelmAppCondition)
  | [] => none
  | d :: ds => if d.type = type then some ds else (dropCondition type ds).map (d :: ·)

def removeCondition (s : HelmAppStatus) (type : String) : HelmAppStatus :=
  match dropCondition type s.conditions with
  | some conditions => { s with conditions := conditions }
  | none => s.updateStatusString

end HelmAppStatus

open HelmAppStatus

/-! ### The summary -/

def errors (cs : List HelmAppCondition) : List HelmAppCondition :=
  cs.filter HelmAppCondition.isError

/-- What `status` and `statusString` say about the conditions. -/
def summary (cs : List HelmAppCondition) : String × String :=
  if errors cs = [] then ("Success", "Success")
  else (String.intercalate "," ((errors cs).map HelmAppCondition.reason),
    String.intercalate "," ((errors cs).map HelmAppCondition.text))

/-- The summary is that of the conditions. -/
def Fresh (s : HelmAppStatus) : Prop := (s.status, s.statusString) = summary s.conditions

instance (s : HelmAppStatus) : Decidable (Fresh s) := inferInstanceAs (Decidable (_ = _))

theorem mem_intercalate {sep t : String} {ch : Char} : ∀ {l : List String},
    t ∈ l → ch ∈ t.toList → ch ∈ (sep.intercalate l).toList
  | [], h, _ => by cases h
  | [a], h, hch => by
      rw [List.mem_singleton] at h
      subst h
      rw [String.intercalate_singleton]
      exact hch
  | a :: b :: l, h, hch => by
      rw [String.intercalate_cons_cons]
      simp only [String.toList_append, List.mem_append]
      rcases List.mem_cons.mp h with rfl | h
      · exact Or.inl (Or.inl hch)
      · exact Or.inr (mem_intercalate h hch)

theorem mem_reason_of_isError {c : HelmAppCondition} (h : c.isError = true) :
    'E' ∈ c.reason.toList := by
  have hinfix : "Error".toList <:+: c.reason.toList := by
    simpa [HelmAppCondition.isError, contains] using h
  exact hinfix.subset (by decide)

theorem mem_text_of_isError {c : HelmAppCondition} (h : c.isError = true) :
    'E' ∈ c.text.toList := by
  have hreason := mem_reason_of_isError h
  unfold HelmAppCondition.text
  split
  · rw [String.toList_append]
    exact List.mem_append_left _ hreason
  · exact hreason

theorem ne_success {s : String} (h : 'E' ∈ s.toList) : s ≠ "Success" := by
  rintro rfl
  revert h
  decide

theorem mem_errors {cs : List HelmAppCondition} {c : HelmAppCondition} (h : c ∈ errors cs) :
    c.isError = true := (List.mem_filter.mp h).2

/-- The text is the flag of the loop: it says whether there was an error yet. -/
theorem summary_success_iff (cs : List HelmAppCondition) :
    (summary cs).2 = "Success" ↔ errors cs = [] := by
  unfold summary
  constructor
  · intro h
    by_contra hne
    rw [if_neg hne] at h
    obtain ⟨c, hc⟩ := List.exists_mem_of_ne_nil _ hne
    exact ne_success (mem_intercalate (List.mem_map_of_mem hc)
      (mem_text_of_isError (mem_errors hc))) h
  · intro h
    rw [if_pos h]

theorem intercalate_concat (sep a : String) {l : List String} (h : l ≠ []) :
    sep.intercalate (l ++ [a]) = sep.intercalate l ++ sep ++ a := by
  rw [String.intercalate_append_of_ne_nil h (by simp), String.intercalate_singleton]

/-- One round of the loop. -/
theorem summary_concat (cs : List HelmAppCondition) (c : HelmAppCondition) :
    summary (cs ++ [c]) = addCondition (summary cs) c := by
  have herrors : errors (cs ++ [c]) = errors cs ++ errors [c] := List.filter_append _ _
  unfold addCondition
  by_cases hc : contains c.reason "Error"
  · have hone : errors [c] = [c] := by simp [errors, HelmAppCondition.isError, hc]
    rw [if_pos hc]
    by_cases hnil : errors cs = []
    · rw [if_pos ((summary_success_iff cs).mpr hnil)]
      simp [summary, herrors, hone, hnil, HelmAppCondition.text]
    · rw [if_neg (fun h => hnil ((summary_success_iff cs).mp h))]
      unfold summary
      rw [herrors, hone, if_neg (by simp), if_neg hnil, List.map_append, List.map_append]
      simp only [List.map_cons, List.map_nil]
      rw [intercalate_concat _ _ (by simpa using hnil), intercalate_concat _ _ (by simpa using hnil)]
      unfold HelmAppCondition.text
      split
      · simp only [String.append_assoc]
      · rfl
  · have hone : errors [c] = [] := by simp [errors, HelmAppCondition.isError, hc]
    rw [if_neg hc]
    unfold summary
    rw [herrors, hone, List.append_nil]

theorem foldl_addCondition (cs : List HelmAppCondition) :
    cs.foldl addCondition ("Success", "Success") = summary cs := by
  induction cs using List.reverseRecOn with
  | nil => rfl
  | append_singleton cs c ih => rw [List.foldl_append, ih, summary_concat, List.foldl_cons, List.foldl_nil]

/-- The loop computes the summary. -/
theorem updateStatusString_eq (s : HelmAppStatus) :
    s.updateStatusString =
      { s with status := (summary s.conditions).1, statusString := (summary s.conditions).2 } := by
  unfold updateStatusString
  rw [foldl_addCondition]

theorem updateStatusString_fresh (s : HelmAppStatus) : Fresh s.updateStatusString := by
  rw [updateStatusString_eq]
  rfl

/-! ### What the texts tell apart -/

/-- Two conditions about which the summary says the same. -/
def SameEntry (d c : HelmAppCondition) : Prop :=
  (d.isError = false ∧ c.isError = false) ∨ (d.reason = c.reason ∧ d.message = c.message)

instance (d c : HelmAppCondition) : Decidable (SameEntry d c) := inferInstanceAs (Decidable (_ ∨ _))

theorem intercalate_around (sep : String) (m : List String) : ∀ l : List String,
    ∃ p q, ∀ x, sep.intercalate (l ++ x :: m) = p ++ x ++ q
  | [] => by
      cases m with
      | nil => exact ⟨"", "", fun x => by simp⟩
      | cons b m =>
          refine ⟨"", sep ++ sep.intercalate (b :: m), fun x => ?_⟩
          rw [List.nil_append, String.intercalate_cons_cons, String.empty_append, String.append_assoc]
  | a :: l => by
      obtain ⟨p, q, h⟩ := intercalate_around sep m l
      refine ⟨a ++ sep ++ p, q, fun x => ?_⟩
      rw [List.cons_append, String.intercalate_cons_of_ne_nil (by simp), h]
      simp only [String.append_assoc]

theorem length_intercalate (sep : String) : ∀ {l : List String}, l ≠ [] →
    (sep.intercalate l).length + sep.length = (l.map fun s => s.length + sep.length).sum
  | [], h => absurd rfl h
  | [a], _ => by simp
  | a :: b :: l, _ => by
      have ih := length_intercalate sep (l := b :: l) (by simp)
      rw [String.intercalate_cons_cons, List.map_cons, List.sum_cons, ← ih]
      simp only [String.length_append]
      omega

theorem errors_middle (xs ys : List HelmAppCondition) {d : HelmAppCondition} (h : d.isError = true) :
    errors (xs ++ d :: ys) = errors xs ++ d :: errors ys := by
  unfold errors
  rw [List.filter_append, List.filter_cons_of_pos h]

theorem errors_skip (xs ys : List HelmAppCondition) {d : HelmAppCondition}
    (h : d.isError = false) : errors (xs ++ d :: ys) = errors (xs ++ ys) := by
  unfold errors
  rw [List.filter_append, List.filter_cons_of_neg (by simp [h]), List.filter_append]

theorem summary_remove_iff (xs ys : List HelmAppCondition) (d : HelmAppCondition) :
    summary (xs ++ d :: ys) = summary (xs ++ ys) ↔ d.isError = false := by
  constructor
  · intro h
    by_contra hd
    rw [Bool.not_eq_false] at hd
    have hne : errors (xs ++ d :: ys) ≠ [] := by
      rw [errors_middle xs ys hd]
      simp
    have hne' : errors (xs ++ ys) ≠ [] := by
      intro hnil
      apply hne
      rw [← summary_success_iff, h, summary_success_iff]
      exact hnil
    -- one reason more makes `status` longer
    have hstatus := congrArg (fun texts => texts.1.length + ",".length) h
    simp only [summary, if_neg hne, if_neg hne'] at hstatus
    rw [length_intercalate _ (by simpa using hne), length_intercalate _ (by simpa using hne'),
      errors_middle xs ys hd] at hstatus
    have hcomma : ",".length = 1 := by decide
    simp only [errors, List.filter_append, List.map_append, List.map_cons, List.sum_append,
      List.sum_cons] at hstatus
    omega
  · intro hd
    unfold summary
    rw [errors_skip xs ys hd]

theorem text_inj {d c : HelmAppCondition} (hreason : d.reason = c.reason) (htext : d.text = c.text) :
    d.message = c.message := by
  unfold HelmAppCondition.text at htext
  rw [hreason] at htext
  have hne : ∀ m : String, c.reason ++ (": " ++ m) ≠ c.reason := by
    intro m h
    have hlen := congrArg String.length h
    have hcolon : ": ".length = 2 := by decide
    simp only [String.length_append] at hlen
    omega
  split at htext
  · split at htext
    · exact (String.append_right_inj _).mp ((String.append_right_inj _).mp htext)
    · exact absurd htext (hne _)
  · rename_i hd
    split at htext
    · exact absurd htext.symm (hne _)
    · rename_i hc
      rw [not_not.mp hd, not_not.mp hc]

theorem summary_replace_iff (xs ys : List HelmAppCondition) (d c : HelmAppCondition) :
    summary (xs ++ d :: ys) = summary (xs ++ c :: ys) ↔ SameEntry d c := by
  cases hd : d.isError with
  | false =>
      rw [(summary_remove_iff xs ys d).mpr hd, eq_comm, summary_remove_iff]
      constructor
      · intro hc
        exact Or.inl ⟨hd, hc⟩
      · rintro (⟨-, hc⟩ | ⟨hreason, -⟩)
        · exact hc
        · rw [← hd, HelmAppCondition.isError, HelmAppCondition.isError, hreason]
  | true =>
      cases hc : c.isError with
      | false =>
          rw [(summary_remove_iff xs ys c).mpr hc, summary_remove_iff]
          constructor
          · intro h
            rw [hd] at h
            cases h
          · rintro (⟨h, -⟩ | ⟨hreason, -⟩)
            · exact h
            · rw [← hc, HelmAppCondition.isError, HelmAppCondition.isError, hreason]
      | true =>
          obtain ⟨p, q, hstatus⟩ := intercalate_around "," ((errors ys).map HelmAppCondition.reason)
            ((errors xs).map HelmAppCondition.reason)
          obtain ⟨p', q', hstring⟩ := intercalate_around "," ((errors ys).map HelmAppCondition.text)
            ((errors xs).map HelmAppCondition.text)
          unfold summary
          rw [errors_middle xs ys hd, errors_middle xs ys hc, if_neg (by simp), if_neg (by simp)]
          simp only [List.map_append, List.map_cons, hstatus, hstring, Prod.mk.injEq,
            String.append_left_inj, String.append_right_inj]
          constructor
          · rintro ⟨hreason, htext⟩
            exact Or.inr ⟨hreason, text_inj hreason htext⟩
          · rintro (⟨h, -⟩ | ⟨hreason, hmessage⟩)
            · rw [hd] at h
              cases h
            · refine ⟨hreason, ?_⟩
              unfold HelmAppCondition.text
              rw [hreason, hmessage]

/-! ### One call -/

/-- A call of one of the two operations. -/
inductive Call where
  | set (now : Time) (c : HelmAppCondition)
  | remove (type : String)

def Call.apply (s : HelmAppStatus) : Call → HelmAppStatus
  | set now c => s.setCondition now c
  | remove type => s.removeCondition type

/-- The call does not touch what the summary says: a condition that it replaces is followed by
one with the same entry, and a condition that it removes is no error. -/
def Call.Keeps (s : HelmAppStatus) : Call → Prop
  | set _ c => ∀ d, s.conditions.find? (fun d => d.type = c.type) = some d → SameEntry d c
  | remove type => ∀ d, s.conditions.find? (fun d => d.type = type) = some d → d.isError = false

theorem replaceCondition_spec (now : Time) (c : HelmAppCondition) (cs : List HelmAppCondition) :
    match cs.find? (fun d => d.type = c.type) with
    | none => replaceCondition now c cs = none
    | some d => ∃ xs ys time, cs = xs ++ d :: ys ∧
        replaceCondition now c cs = some (xs ++ { c with lastTransitionTime := time } :: ys) := by
  induction cs with
  | nil => rfl
  | cons d ds ih =>
      by_cases hd : d.type = c.type
      · rw [List.find?_cons_of_pos (by simpa using hd)]
        refine ⟨[], ds, if d.status ≠ c.status then now else d.lastTransitionTime, rfl, ?_⟩
        rw [replaceCondition, if_pos hd]
        rfl
      · rw [List.find?_cons_of_neg (by simpa using hd)]
        rw [replaceCondition, if_neg hd]
        split at ih
        · rw [ih]
          rfl
        · obtain ⟨xs, ys, time, hcs, hrep⟩ := ih
          refine ⟨d :: xs, ys, time, by rw [hcs]; rfl, ?_⟩
          rw [hrep]
          rfl

theorem dropCondition_spec (type : String) (cs : List HelmAppCondition) :
    match cs.find? (fun d => d.type = type) with
    | none => dropCondition type cs = none
    | some d => ∃ xs ys, cs = xs ++ d :: ys ∧ dropCondition type cs = some (xs ++ ys) := by
  induction cs with
  | nil => rfl
  | cons d ds ih =>
      by_cases hd : d.type = type
      · rw [List.find?_cons_of_pos (by simpa using hd)]
        refine ⟨[], ds, rfl, ?_⟩
        rw [dropCondition, if_pos hd]
        rfl
      · rw [List.find?_cons_of_neg (by simpa using hd)]
        rw [dropCondition, if_neg hd]
        split at ih
        · rw [ih]
          rfl
        · obtain ⟨xs, ys, hcs, hdrop⟩ := ih
          refine ⟨d :: xs, ys, by rw [hcs]; rfl, ?_⟩
          rw [hdrop]
          rfl

/-- Setting a condition of a new type updates the texts; else they are right if and only if the
entry is the same. -/
theorem set_iff {s : HelmAppStatus} (hs : Fresh s) (now : Time) (c : HelmAppCondition) :
    Fresh (s.setCondition now c) ↔ (Call.set now c).Keeps s := by
  have hspec := replaceCondition_spec now c s.conditions
  unfold setCondition
  simp only [Call.Keeps]
  cases hfind : s.conditions.find? (fun d => d.type = c.type) with
  | none =>
      rw [hfind] at hspec
      simp only [hspec]
      constructor
      · intro _ d hd
        cases hd
      · intro _
        exact updateStatusString_fresh _
  | some d =>
      rw [hfind] at hspec
      obtain ⟨xs, ys, time, hcs, hrep⟩ := hspec
      simp only [hrep, Option.some.injEq, forall_eq']
      unfold Fresh at hs ⊢
      simp only [hs]
      rw [hcs, summary_replace_iff]
      rfl

theorem remove_iff {s : HelmAppStatus} (hs : Fresh s) (type : String) :
    Fresh (s.removeCondition type) ↔ (Call.remove type).Keeps s := by
  have hspec := dropCondition_spec type s.conditions
  unfold removeCondition
  simp only [Call.Keeps]
  cases hfind : s.conditions.find? (fun d => d.type = type) with
  | none =>
      rw [hfind] at hspec
      simp only [hspec]
      constructor
      · intro _ d hd
        cases hd
      · intro _
        exact updateStatusString_fresh _
  | some d =>
      rw [hfind] at hspec
      obtain ⟨xs, ys, hcs, hdrop⟩ := hspec
      simp only [hdrop, Option.some.injEq, forall_eq']
      unfold Fresh at hs ⊢
      simp only [hs]
      rw [hcs, summary_remove_iff]

theorem apply_iff {s : HelmAppStatus} (hs : Fresh s) (call : Call) :
    Fresh (call.apply s) ↔ call.Keeps s := by
  cases call with
  | set now c => exact set_iff hs now c
  | remove type => exact remove_iff hs type

/-- The first call finds no condition. -/
theorem apply_empty {s : HelmAppStatus} (hs : s.conditions = []) (call : Call) :
    Fresh (call.apply s) ∧ call.Keeps s := by
  cases call with
  | set now c =>
      refine ⟨?_, ?_⟩
      · simp only [Call.apply, setCondition, hs, replaceCondition]
        exact updateStatusString_fresh _
      · intro d hd
        rw [hs] at hd
        cases hd
  | remove type =>
      refine ⟨?_, ?_⟩
      · simp only [Call.apply, removeCondition, hs, dropCondition]
        exact updateStatusString_fresh _
      · intro d hd
        rw [hs] at hd
        cases hd

/-! ### Sequences of calls -/

/-- The status after the calls, from an empty one. -/
def after (calls : List Call) : HelmAppStatus := calls.foldl Call.apply {}

theorem after_take_succ (calls : List Call) {k : ℕ} (hk : k < calls.length) :
    after (calls.take (k + 1)) = calls[k].apply (after (calls.take k)) := by
  unfold after
  rw [List.take_succ_eq_append_getElem hk, List.foldl_append, List.foldl_cons, List.foldl_nil]

/-- **Summary**: it is right after every call of a sequence if and only if no call touches what
the summary says without updating it. -/
theorem fresh_iff (calls : List Call) :
    (∀ k, k < calls.length → Fresh (after (calls.take (k + 1)))) ↔
      ∀ k (hk : k < calls.length), calls[k].Keeps (after (calls.take k)) := by
  have hstep : ∀ k (hk : k < calls.length), (k = 0 ∨ Fresh (after (calls.take k))) →
      (Fresh (after (calls.take (k + 1))) ↔ calls[k].Keeps (after (calls.take k))) := by
    intro k hk hbefore
    rw [after_take_succ calls hk]
    rcases hbefore with rfl | hfresh
    · obtain ⟨hfresh, hkeeps⟩ := apply_empty (s := after (calls.take 0)) rfl calls[0]
      exact iff_of_true hfresh hkeeps
    · exact apply_iff hfresh _
  constructor
  · intro h k hk
    refine (hstep k hk ?_).mp (h k hk)
    cases k with
    | zero => exact Or.inl rfl
    | succ k => exact Or.inr (h k (by omega))
  · intro h k
    induction k with
    | zero =>
        intro hk
        exact (hstep 0 hk (Or.inl rfl)).mpr (h 0 hk)
    | succ k ih =>
        intro hk
        exact (hstep (k + 1) hk (Or.inr (ih (by omega)))).mpr (h (k + 1) hk)

def failedSync : HelmAppCondition where
  type := "Irreconcilable"
  status := "True"
  reason := "ReconcileError"
  message := "boom"

/-- A sync that failed, and the next one, which succeeds: the error stays in the summary. -/
theorem stale_after_success :
    ¬ ∀ calls : List Call, ∀ k, k < calls.length → Fresh (after (calls.take (k + 1))) := by
  intro h
  have hstale := h [.set 0 failedSync, .remove "Irreconcilable"] 1 (by decide)
  revert hstale
  decide +kernel

end Powerful.Helm
