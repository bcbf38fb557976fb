import Mathlib
import Powerful.ManagerFactory

/-! # Conversions that are cut off

A conversion creates a version of Helm 3 before it deletes the one of Helm 2.  Stopped in between, it
leaves a version that is stored both ways, and creating it again fails: the version stays as it is and
no manager is made any more (`newManager_blocked`).  Stopped anywhere else it leaves what the next call
converts: `convertV2ToV3_resumes`. -/

namespace Powerful.Helm

open Resumption

variable {ω χ : Type}

section amid
open Prog

/-! ### A version that is stored both ways -/

/-- A version of Helm 2 that cannot be converted, since its key is taken. -/
def Backends.Blocked (b : Backends ω) (ns : String) (r : ReleaseV2) (w : ω) : Prop :=
  r ∈ (b.stored w ns).v2 ∧ ∃ r' ∈ (b.stored w ns).v3, r'.key = r.key

namespace ReleaseManagerFactory
variable (f : ReleaseManagerFactory ω χ) (ns : String) (r : ReleaseV2) (P : ReleaseV2 → Prop)

/-- The version stays, and no version of Helm 2 comes up that is not in `P`. -/
structure Held (w : ω) : Prop where
  blocked : f.backends.Blocked ns r w
  only : ∀ r₂ ∈ (f.backends.stored w ns).v2, P r₂

/-- What a step does from a state in which the version is held. -/
def Holding (w w' : ω) : Prop := f.Held ns r P w → f.Held ns r P w'

instance : IsPreorder ω (f.Holding ns r P) where
  refl _ h := h
  trans _ _ _ h h' hw := h' (h hw)

theorem stable_held : Stable (f.Holding ns r P) (f.Held ns r P) := fun _ _ h hw => h hw

variable {ns r P}

theorem Held.of_eq {w w' : ω} (hw : f.Held ns r P w) (h : f.backends.stored w' = f.backends.stored w) :
    f.Held ns r P w' := by
  refine ⟨?_, ?_⟩
  · unfold Backends.Blocked
    rw [h]
    exact hw.blocked
  · rw [h]
    exact hw.only

/-- A version is created. -/
theorem Held.createV3 {w : ω} (hw : f.Held ns r P w) (ns' : String) (r' : ReleaseRecord) :
    f.Held ns r P (f.backends.createV3 ns' r' w).2 := by
  rcases f.backends.createV3_any ns' r' w with hsame | hadded
  · exact Held.of_eq f hw hsame
  · obtain ⟨⟨hr, r₃, hr₃, hkey⟩, honly⟩ := hw
    refine ⟨?_, ?_⟩
    · unfold Backends.Blocked
      rw [hadded]
      rcases eq_or_ne ns ns' with rfl | hns
      · rw [Function.update_self]
        exact ⟨hr, r₃, List.mem_cons_of_mem r' hr₃, hkey⟩
      · rw [Function.update_of_ne hns]
        exact ⟨hr, r₃, hr₃, hkey⟩
    · rw [hadded]
      rcases eq_or_ne ns ns' with rfl | hns
      · rw [Function.update_self]
        exact honly
      · rw [Function.update_of_ne hns]
        exact honly

/-- Another version is deleted. -/
theorem Held.deleteV2 {w : ω} (hw : f.Held ns r P w) {ns' n : String} {v : ℤ}
    (hother : ns' = ns → r.key ≠ (n, v)) :
    f.Held ns r P (f.backends.deleteV2 ns' n v w).2 := by
  rcases f.backends.deleteV2_any ns' n v w with hsame | hdeleted
  · exact Held.of_eq f hw hsame
  · obtain ⟨⟨hr, hkey⟩, honly⟩ := hw
    refine ⟨?_, ?_⟩
    · unfold Backends.Blocked
      rw [hdeleted]
      rcases eq_or_ne ns ns' with rfl | hns
      · rw [Function.update_self]
        exact ⟨List.mem_filter.mpr ⟨hr, decide_eq_true (hother rfl)⟩, hkey⟩
      · rw [Function.update_of_ne hns]
        exact ⟨hr, hkey⟩
    · rw [hdeleted]
      rcases eq_or_ne ns ns' with rfl | hns
      · rw [Function.update_self]
        exact fun r₂ hr₂ => honly r₂ (List.mem_of_mem_filter hr₂)
      · rw [Function.update_of_ne hns]
        exact honly

/-- A history with the version is not converted to its end. -/
theorem convertHistoryToV3_held (ns' : String) : ∀ history : List ReleaseV2,
    Amid (f.Holding ns r P) (f.Holding ns r P) (f.Held ns r P)
      (Returning fun _ w => f.Held ns r P w ∧ (ns' = ns → r ∉ history)) (f.convertHistoryToV3 ns' history)
  | [] => Amid.return_ (f.stable_held ns r P) fun _ hw => ⟨hw, fun _ => List.not_mem_nil⟩
  | relV2 :: history => by
      have hstable := f.stable_held ns r P
      unfold convertHistoryToV3
      split
      · exact Amid.fail _
      · rename_i relV3 hcreate
        have hfree := Stable.and hstable (Stable.const _ (ns' = ns → r.key ≠ relV2.key))
        refine Amid.andThen (K := fun _ w => f.Held ns r P w ∧ (ns' = ns → r.key ≠ relV2.key))
          (orWrap_amid (fun _ => hfree) ?_) fun _ => ?_
        · refine Amid.atomic hstable (Stable.returning fun _ => hfree) fun w hw => ?_
          refine ⟨fun _ => Held.createV3 f hw ns' relV3, fun _ hok => ⟨Held.createV3 f hw ns' relV3, ?_⟩⟩
          rintro rfl hkey
          obtain ⟨r', hr', hr'key⟩ := hw.blocked.2
          have hnew := (f.backends.createV3_ok ns' relV3 w _ (Prod.ext hok rfl)).1 r' hr'
          exact hnew (by rw [hr'key, hkey, f.backends.createRelease_key relV2 relV3 hcreate])
        refine Amid.andThen (K := fun _ w => f.Held ns r P w ∧ (ns' = ns → r.key ≠ relV2.key))
          (orWrap_amid (fun _ => hfree) ?_) fun _ => ?_
        · refine Amid.atomic hfree (Stable.returning fun _ => hfree) fun w ⟨hw, hother⟩ => ?_
          exact ⟨fun _ => Held.deleteV2 f hw hother, fun _ _ => ⟨Held.deleteV2 f hw hother, hother⟩⟩
        · refine Amid.mono (Amid.keeping (Stable.const _ _) (convertHistoryToV3_held ns' history))
            fun o w hQ a ha => ?_
          obtain ⟨⟨hw, hmem⟩, hother⟩ := hQ a ha
          refine ⟨hw, fun hns => List.not_mem_cons_of_ne_of_not_mem ?_ (hmem hns)⟩
          rintro rfl
          exact hother hns rfl

theorem releaseHistoryV2_held (ns' n : String) : Amid (f.Holding ns r P) (f.Holding ns r P) (f.Held ns r P)
    (Returning fun found w => f.Held ns r P w ∧ (ns' = ns → (n = r.name → r ∈ found.1) ∧
      ∀ r₂ ∈ found.1, P r₂ ∧ r₂.name = n) ∧ (found.2 = true ↔ found.1 ≠ [])) (f.releaseHistoryV2 ns' n) := by
  have hstable := f.stable_held ns r P
  have hconst : ∀ φ : Prop, Stable (f.Holding ns r P) fun w => f.Held ns r P w ∧ φ :=
    fun φ => Stable.and hstable (Stable.const _ φ)
  refine Amid.andThen (K := fun history w => f.Held ns r P w ∧ (ns' = ns →
    (∀ e, history = .error e → notFoundErr e = true → n ≠ r.name) ∧
    ∀ rs, history = .ok rs → (n = r.name → r ∈ rs) ∧ ∀ r₂ ∈ rs, P r₂ ∧ r₂.name = n)) ?_ fun history => ?_
  · refine contact_amid hstable (fun _ => hconst _) fun w hw => ?_
    have hafter := Held.of_eq f hw (f.backends.stored_historyV2 ns' n w)
    refine ⟨fun _ => hafter, hafter, ?_⟩
    rintro rfl
    refine ⟨?_, fun rs hok => ?_⟩
    · rintro e herror hnotFound rfl
      exact f.backends.historyV2_notFound ns' _ w e _ (Prod.ext herror rfl) hnotFound r hw.blocked.1 rfl
    · have hrs := f.backends.historyV2_ok ns' n w rs _ (Prod.ext hok rfl)
      exact ⟨fun hname => (hrs r).mpr ⟨hw.blocked.1, hname.symm⟩,
        fun r₂ hr₂ => ⟨hw.only r₂ ((hrs r₂).mp hr₂).1, ((hrs r₂).mp hr₂).2⟩⟩
  · cases history with
    | error e =>
        simp only
        split
        · rename_i hnotFound
          refine Amid.return_ (hconst _) fun w hw => ⟨hw.1, fun hns => ⟨?_, ?_⟩, by simp⟩
          · exact fun hname => absurd hname ((hw.2 hns).1 e rfl hnotFound)
          · exact fun r₂ hr₂ => absurd hr₂ List.not_mem_nil
        · exact Amid.fail _
    | ok rs =>
        exact Amid.return_ (hconst _) fun w hw =>
          ⟨hw.1, fun hns => (hw.2 hns).2 rs rfl, by simp [List.length_pos_iff]⟩

/-- The conversion of the resource's release comes to the version. -/
def Due (object : Values) : Prop := r.name = f.getLegacyName object ∨
  r.name = getName object ∧ ∀ r₂, P r₂ → r₂.name ≠ f.getLegacyName object

theorem convertV2ToV3_held (object : Values) : Amid (f.Holding ns r P) (f.Holding ns r P) (f.Held ns r P)
    (Returning fun _ w => f.Held ns r P w ∧ (getNamespace object = ns → ¬ f.Due (r := r) (P := P) object))
    (f.convertV2ToV3 object) := by
  have hconst : ∀ φ : Prop, Stable (f.Holding ns r P) fun w => f.Held ns r P w ∧ φ :=
    fun φ => Stable.and (f.stable_held ns r P) (Stable.const _ φ)
  refine Amid.andThen (f.releaseHistoryV2_held _ _) fun ⟨legacyHistoryV2, legacyExistsV2⟩ => ?_
  intro w ⟨hw, hlegacy, hnonempty⟩
  simp only at hlegacy hnonempty ⊢
  split
  · refine Amid.mono (f.convertHistoryToV3_held _ legacyHistoryV2) (fun o w hQ a ha => ?_) w hw
    refine ⟨(hQ a ha).1, fun hns hdue => (hQ a ha).2 hns ?_⟩
    rcases hdue with hname | ⟨-, hnone⟩
    · exact (hlegacy hns).1 hname.symm
    · -- the history has no version with the legacy name
      rename_i hexists
      obtain ⟨r₂, hr₂⟩ := List.exists_mem_of_ne_nil _ (hnonempty.mp hexists)
      obtain ⟨hP, hname₂⟩ := (hlegacy hns).2 r₂ hr₂
      exact absurd hname₂ (hnone r₂ hP)
  · rename_i hexists
    have hread := @releaseHistoryV2_held ω χ f ns r P (getNamespace object) (getName object)
    refine (Amid.andThen hread fun ⟨historyV2, existsV2⟩ => ?_) w hw
    intro w ⟨hw, hhistory, hnonempty'⟩
    have hname : getNamespace object = ns → r.name ≠ f.getLegacyName object := fun hns hname =>
      hexists (hnonempty.mpr (List.ne_nil_of_mem ((hlegacy hns).1 hname.symm)))
    simp only at hhistory hnonempty' ⊢
    split
    · refine Amid.mono (f.convertHistoryToV3_held _ historyV2) (fun o w hQ a ha => ?_) w hw
      refine ⟨(hQ a ha).1, fun hns hdue => (hQ a ha).2 hns ?_⟩
      rcases hdue with hlegacyName | ⟨hname', -⟩
      · exact absurd hlegacyName (hname hns)
      · exact (hhistory hns).1 hname'.symm
    · rename_i hexists'
      refine Amid.return_ (f.stable_held ns r P) (fun w hw => ⟨hw, fun hns hdue => ?_⟩) w hw
      rcases hdue with hlegacyName | ⟨hname', -⟩
      · exact hname hns hlegacyName
      · exact hexists' (hnonempty'.mpr (List.ne_nil_of_mem ((hhistory hns).1 hname'.symm)))

/-- Finding out the name does nothing to what is stored. -/
theorem getReleaseName_steps (chart : String) (object : Values) :
    (f.getReleaseName chart object).Steps fun w w' => f.backends.stored w' = f.backends.stored w := by
  have hhistory : ∀ ns n, (f.releaseHistoryV3 ns n).Steps
      fun w w' => f.backends.stored w' = f.backends.stored w := fun ns n => by
    refine Steps.bind (Steps.atomic fun w => f.backends.stored_historyV3 ns n w) fun history => ?_
    cases history with
    | ok rs => exact Steps.pure _
    | error e =>
        simp only
        split
        · exact Steps.pure _
        · exact Steps.throw _
  refine Steps.bind (hhistory _ _) fun ⟨_, legacyExists⟩ => ?_
  simp only
  split
  · exact Steps.pure _
  · refine Steps.bind (hhistory _ _) fun ⟨history, _⟩ => ?_
    cases history with
    | nil => exact Steps.pure _
    | cons first rest =>
        simp only
        split
        · exact Steps.throw _
        · split
          · exact Steps.throw _
          · exact Steps.pure _

theorem newManager_held (object : Values) (overrideValues : List (String × String)) :
    Amid (f.Holding ns r P) (f.Holding ns r P) (f.Held ns r P)
      (Returning fun _ w => f.Held ns r P w ∧ (getNamespace object = ns → ¬ f.Due (r := r) (P := P) object))
      (f.newManager object overrideValues) := by
  have hheld := f.stable_held ns r P
  have hend := Stable.and hheld (Stable.const _ (getNamespace object = ns → ¬ f.Due (r := r) (P := P) object))
  refine Amid.andThen (orWrap_amid (fun _ => hheld) (peek_amid hheld _)) fun _ => ?_
  refine Amid.andThen (orWrap_amid (fun _ => hend) (f.convertV2ToV3_held object)) fun _ => ?_
  refine Amid.andThen (orWrap_amid (fun _ => hend) (peek_amid hend _)) fun _ => ?_
  refine Amid.andThen (orWrap_amid (fun _ => hend) (peek_amid hend _)) fun crChart => ?_
  refine Amid.andThen (orWrap_amid (fun _ => hend) (Amid.ofSteps (Steps.mono (fun w w' h hw => ?_)
    (f.getReleaseName_steps (f.chartName crChart) object)) hend)) fun releaseName => ?_
  · exact Held.of_eq f hw h
  refine Amid.andThen (Amid.ofSteps (Steps.ofExcept _) hend) fun values => ?_
  exact Amid.return_ hend fun _ hw => hw

end ReleaseManagerFactory

end amid

/-! ### A conversion that can be done -/

/-- The storages answer, and every version can be converted. -/
structure Backends.Answers (b : Backends ω) : Prop where
  createRelease : ∀ r, ∃ r', b.createRelease r = .ok r'
  createV3 : ∀ ns r w, (∀ r' ∈ (b.stored w ns).v3, r'.key ≠ r.key) → (b.createV3 ns r w).1 = .ok ()
  historyV2 : ∀ ns n w, (∃ rs, (b.historyV2 ns n w).1 = .ok rs ∧ rs.Nodup) ∨
    ∃ e, (b.historyV2 ns n w).1 = .error e ∧ notFoundErr e = true
  deleteV2 : ∀ ns n v w, (∃ r ∈ (b.stored w ns).v2, r.key = (n, v)) → (b.deleteV2 ns n v w).1 = .ok ()

namespace ReleaseManagerFactory
open Prog
variable (f : ReleaseManagerFactory ω χ)

theorem run_orWrap {α : Type} (text : String) (p : Prog ω GoError α) (w : ω) :
    (orWrap text p).run w = ((p.run w).1.mapError fun e => e.wrap text, (p.run w).2) := by
  unfold orWrap
  rw [run_bind, run_attempt]
  exact run_ofExcept _ _

/-- Versions whose keys are free are converted one after the other. -/
theorem convertHistoryToV3_answers (h : f.backends.Answers) (ns : String) :
    ∀ {history : List ReleaseV2} {w : ω}, history.Nodup →
      (∀ r ∈ history, r ∈ (f.backends.stored w ns).v2) →
      (∀ r ∈ history, ¬ f.backends.Blocked ns r w) →
      ((f.convertHistoryToV3 ns history).run w).1 = .ok ()
  | [], _, _, _, _ => rfl
  | relV2 :: history, w, hnodup, hstored, hfree => by
      obtain ⟨hnotMem, hnodup⟩ := List.nodup_cons.mp hnodup
      obtain ⟨hrel, hrest⟩ := List.forall_mem_cons.mp hstored
      obtain ⟨relV3, hcreate⟩ := h.createRelease relV2
      have hkey := f.backends.createRelease_key relV2 relV3 hcreate
      have hcreated : (f.backends.createV3 ns relV3 w).1 = .ok () := h.createV3 ns relV3 w fun r' hr' heq =>
        hfree relV2 List.mem_cons_self ⟨hrel, r', hr', heq.trans hkey⟩
      have hw₁ := (f.backends.createV3_ok ns relV3 w _ (Prod.ext hcreated rfl)).2
      have hdeleted := h.deleteV2 ns relV2.name relV2.version (f.backends.createV3 ns relV3 w).2
        ⟨relV2, by rw [hw₁, Function.update_self]; exact hrel, rfl⟩
      have hw₂ := f.backends.deleteV2_ok ns relV2.name relV2.version _ _ (Prod.ext hdeleted rfl)
      rw [hw₁, Function.update_self, Function.update_idem] at hw₂
      have hkeys : ∀ r ∈ history, r.key ≠ relV2.key := fun r hr heq => by
        obtain rfl := List.inj_on_of_nodup_map (f.backends.keysV2 w ns) (hrest r hr) hrel heq
        exact hnotMem hr
      unfold convertHistoryToV3
      rw [hcreate]
      simp only
      rw [run_bind, run_orWrap, run_atomic, hcreated]
      show ((orWrap _ _ >>= _).run _).1 = _
      rw [run_bind, run_orWrap, run_atomic, hdeleted]
      refine convertHistoryToV3_answers h ns hnodup (fun r hr => ?_) fun r hr => ?_
      · rw [hw₂, Function.update_self]
        exact List.mem_filter.mpr ⟨hrest r hr, decide_eq_true (hkeys r hr)⟩
      · unfold Backends.Blocked
        rw [hw₂, Function.update_self]
        rintro ⟨-, r', hr', heq⟩
        rcases List.mem_cons.mp hr' with rfl | hr'
        · exact hkeys r hr (heq.symm.trans hkey)
        · exact hfree r (List.mem_cons_of_mem relV2 hr) ⟨hrest r hr, r', hr', heq⟩

/-- What is listed is what is stored. -/
theorem releaseHistoryV2_answers (h : f.backends.Answers) (ns n : String) (w : ω) :
    ∃ rs w', (f.releaseHistoryV2 ns n).run w = (.ok (rs, decide (rs ≠ [])), w') ∧ rs.Nodup ∧
      f.backends.stored w' = f.backends.stored w ∧
      ∀ r, r ∈ rs ↔ r ∈ (f.backends.stored w ns).v2 ∧ r.name = n := by
  have hstored := f.backends.stored_historyV2 ns n w
  unfold releaseHistoryV2 contact
  rw [run_bind, run_atomic]
  rcases h.historyV2 ns n w with ⟨rs, hok, hnodup⟩ | ⟨e, herror, hnotFound⟩
  · refine ⟨rs, _, ?_, hnodup, hstored, f.backends.historyV2_ok ns n w rs _ (Prod.ext hok rfl)⟩
    rw [hok]
    have hlength : (0 < rs.length) = (rs ≠ []) := propext List.length_pos_iff
    simp only [hlength]
    rfl
  · refine ⟨[], _, ?_, List.nodup_nil, hstored, fun r => iff_of_false List.not_mem_nil fun hr => ?_⟩
    · rw [herror]
      simp only [hnotFound, if_true]
      rfl
    · exact f.backends.historyV2_notFound ns n w e _ (Prod.ext herror rfl) hnotFound r hr.1 hr.2

theorem convertV2ToV3_answers (h : f.backends.Answers) (object : Values) {w : ω}
    (hfree : ∀ r, r.name = f.getLegacyName object ∨
      r.name = getName object ∧ f.NoneV2 (getNamespace object) (f.getLegacyName object) w →
      ¬ f.backends.Blocked (getNamespace object) r w) :
    ((f.convertV2ToV3 object).run w).1 = .ok () := by
  obtain ⟨legacyHistory, w₁, hlegacy, hnodup, hw₁, hlegacyHistory⟩ :=
    f.releaseHistoryV2_answers h (getNamespace object) (f.getLegacyName object) w
  have hconvert : ∀ {n : String} {history : List ReleaseV2} {w' : ω}, history.Nodup →
      f.backends.stored w' = f.backends.stored w →
      (∀ r, r ∈ history ↔ r ∈ (f.backends.stored w (getNamespace object)).v2 ∧ r.name = n) →
      (∀ r, r.name = n → ¬ f.backends.Blocked (getNamespace object) r w) →
      ((f.convertHistoryToV3 (getNamespace object) history).run w').1 = .ok () := by
    intro n history w' hnodup hsame hhistory hblocked
    refine f.convertHistoryToV3_answers h _ hnodup (fun r hr => ?_) fun r hr => ?_
    · rw [hsame]
      exact ((hhistory r).mp hr).1
    · unfold Backends.Blocked
      rw [hsame]
      exact hblocked r ((hhistory r).mp hr).2
  unfold convertV2ToV3
  rw [run_bind_ok hlegacy]
  simp only [decide_eq_true_eq]
  split
  · exact hconvert hnodup hw₁ hlegacyHistory fun r hr => hfree r (Or.inl hr)
  · rename_i hnone
    have hnoneV2 : f.NoneV2 (getNamespace object) (f.getLegacyName object) w := fun r hr hname =>
      hnone (List.ne_nil_of_mem ((hlegacyHistory r).mpr ⟨hr, hname⟩))
    obtain ⟨history, w₂, hrun, hnodup, hw₂, hhistory⟩ :=
      f.releaseHistoryV2_answers h (getNamespace object) (getName object) w₁
    rw [run_bind_ok hrun]
    simp only [decide_eq_true_eq]
    rw [hw₁] at hw₂ hhistory
    split
    · exact hconvert hnodup hw₂ hhistory fun r hr => hfree r (Or.inr ⟨hr, hnoneV2⟩)
    · rfl

end ReleaseManagerFactory

/-! ### Storages in memory -/

abbrev StoreV2 := { rs : List ReleaseV2 // (rs.map ReleaseV2.key).Nodup }

/-- What the namespaces hold. -/
abbrev Stores := String → Store × StoreV2

/-- A storage as a part of something bigger. -/
def ReleaseStorage.on {κ : Type} (s : ReleaseStorage κ) (get : ω → κ) (set : ω → κ → ω)
    (hget : ∀ w k, get (set w k) = k) : ReleaseStorage ω where
  records w := s.records (get w)
  history n w := ((s.history n (get w)).1, set w (s.history n (get w)).2)
  delete n v w := ((s.delete n v (get w)).1, set w (s.delete n v (get w)).2)
  deployed n w := ((s.deployed n (get w)).1, set w (s.deployed n (get w)).2)
  keys w := s.keys (get w)
  records_history n w := by rw [hget, s.records_history]
  records_deployed n w := by rw [hget, s.records_deployed]
  history_ok n w rs w' h := s.history_ok n (get w) rs _ (Prod.ext (Prod.mk.inj h).1 rfl)
  history_notFound n w e w' h := s.history_notFound n (get w) e _ (Prod.ext (Prod.mk.inj h).1 rfl)
  delete_ok n v w w' h := by
    obtain ⟨hok, rfl⟩ := Prod.mk.inj h
    rw [hget]
    exact s.delete_ok n v (get w) _ (Prod.ext hok rfl)
  delete_notFound n v w e w' h hnotFound := by
    obtain ⟨herror, rfl⟩ := Prod.mk.inj h
    rw [hget]
    exact s.delete_notFound n v (get w) e _ (Prod.ext herror rfl) hnotFound
  delete_any n v w := by
    rw [hget]
    exact s.delete_any n v (get w)
  deployed_ok n w r w' h := s.deployed_ok n (get w) r _ (Prod.ext (Prod.mk.inj h).1 rfl)
  deployed_none n w e w' h := s.deployed_none n (get w) e _ (Prod.ext (Prod.mk.inj h).1 rfl)

def memoryBackends : Backends Stores where
  stored w ns := ⟨(w ns).2.1, (w ns).1.1⟩
  v3 ns := memoryStorage.on (fun w => (w ns).1) (fun w k => Function.update w ns (k, (w ns).2)) fun w k => by
    rw [Function.update_self]
  createV3 ns r w :=
    if h : ∀ r' ∈ (w ns).1.1, r'.key ≠ r.key then
      (.ok (), Function.update w ns (⟨r :: (w ns).1.1, by
        rw [List.map_cons, List.nodup_cons]
        refine ⟨fun hmem => ?_, (w ns).1.2⟩
        obtain ⟨r', hr', hkey⟩ := List.mem_map.mp hmem
        exact h r' hr' hkey⟩, (w ns).2))
    else (.error { message := "release: already exists" }, w)
  historyV2 ns n w :=
    let rs := (w ns).2.1.filter fun r => r.name = n
    (if rs = [] then .error ReleaseManager.errReleaseNotFound else .ok rs, w)
  deleteV2 ns n v w :=
    if ∀ r ∈ (w ns).2.1, r.key ≠ (n, v) then (.error ReleaseManager.errReleaseNotFound, w)
    else (.ok (), Function.update w ns ((w ns).1, ⟨(w ns).2.1.filter fun r => r.key ≠ (n, v),
      (w ns).2.2.sublist (List.filter_sublist.map _)⟩))
  createRelease r := .ok ⟨r.name, r.version, some ⟨.deployed, ""⟩, r.manifest, r.chart⟩
  keysV2 w ns := (w ns).2.2
  records_v3 _ _ := rfl
  stored_historyV3 ns n w := by
    funext ns'
    rcases eq_or_ne ns' ns with rfl | hns
    · simp [ReleaseStorage.on, memoryStorage]
    · simp [ReleaseStorage.on, hns]
  stored_historyV2 _ _ _ := rfl
  createV3_ok ns r w w' h := by
    split at h
    · rename_i hfree
      obtain ⟨-, rfl⟩ := Prod.mk.inj h
      refine ⟨hfree, funext fun ns' => ?_⟩
      rcases eq_or_ne ns' ns with rfl | hns
      · simp [Stored.createV3]
      · simp [hns]
    · cases h
  createV3_any ns r w := by
    split
    · refine Or.inr (funext fun ns' => ?_)
      rcases eq_or_ne ns' ns with rfl | hns
      · simp [Stored.createV3]
      · simp [hns]
    · exact Or.inl rfl
  historyV2_ok ns n w rs w' h r := by
    obtain ⟨hrs, -⟩ := Prod.mk.inj h
    split at hrs
    · cases hrs
    · obtain rfl := Except.ok.inj hrs
      simp [List.mem_filter]
  historyV2_notFound ns n w e w' h _ := by
    obtain ⟨hrs, -⟩ := Prod.mk.inj h
    split at hrs
    · rename_i hnil
      simpa [List.filter_eq_nil_iff] using hnil
    · cases hrs
  deleteV2_ok ns n v w w' h := by
    split at h
    · cases h
    · obtain ⟨-, rfl⟩ := Prod.mk.inj h
      funext ns'
      rcases eq_or_ne ns' ns with rfl | hns
      · simp [Stored.deleteV2]
      · simp [hns]
  deleteV2_any ns n v w := by
    split
    · exact Or.inl rfl
    · refine Or.inr (funext fun ns' => ?_)
      rcases eq_or_ne ns' ns with rfl | hns
      · simp [Stored.deleteV2]
      · simp [hns]
  createRelease_key r r' h := by
    obtain rfl := Except.ok.inj h
    rfl

namespace ReleaseManagerFactory
open Prog
variable (f : ReleaseManagerFactory ω χ)

/-- A factory in a cluster that has nothing but stored versions. -/
def memoryFactory : ReleaseManagerFactory Stores String where
  toManagerFactory := ManagerFactory.sample
  backends := memoryBackends
  newForConfig _ := .ok ()
  newRESTClientGetter _ _ := .ok ()
  ownerRefClient _ := bareCluster Stores
  actionConfig _ :=
    { install := fun _ _ _ w => (.error ({}, none), w)
      upgrade := fun _ _ _ _ w => (.error ({}, none), w)
      uninstall := fun _ _ w => (.error ({}, none), w)
      rollback := fun _ _ w => (.error {}, w) }
  jsonPatch := patchSample
  loadDir _ := .ok "powerful"
  chartName chart := chart
  parseUUID _ := .error {}
  encodeBytes _ := ""
  stored_candidate _ _ _ _ _ _ _ := rfl

def objectSample : Values where
  fields := [("metadata", .obj [("name", .str "demo"), ("namespace", .str "ns"), ("uid", .str "a-1")]),
    ("spec", .obj [])]
  distinct := by simp [DistinctKeys, DistinctFields]

example : memoryFactory.getLegacyName objectSample = "demo-a1" := by decide

/-- **A conversion that was cut off**: a version that is stored both ways stays so, and the resource
whose release it is of gets no manager any more. -/
theorem newManager_blocked {w₀ : ω} {ns : String} {r : ReleaseV2} (hblocked : f.backends.Blocked ns r w₀)
    {ι : Type} [DecidableEq ι] (objects : ι → Values) (overrideValues : ι → List (String × String))
    (sched : List ι) :
    let reached := interleave sched (fun i => f.newManager (objects i) (overrideValues i)) w₀
    f.backends.Blocked ns r reached.2 ∧ ∀ i, getNamespace (objects i) = ns →
      r.name = f.getLegacyName (objects i) ∨
        r.name = getName (objects i) ∧ f.NoneV2 ns (f.getLegacyName (objects i)) w₀ →
      ∀ m, (reached.1 i).outcome? ≠ some (.ok m) := by
  have hheld : f.Held ns r (fun r₂ => r₂ ∈ (f.backends.stored w₀ ns).v2) w₀ := ⟨hblocked, fun _ h => h⟩
  have hamid := interleave_alike (fun i => f.newManager_held (objects i) (overrideValues i))
    (fun _ => hheld) sched
  exact ⟨(hamid.1 hheld).blocked, fun i hns hdue m hm => (hamid.2 i (.ok m) hm m rfl).2 hns hdue⟩

/-- Stopped behind the creation and before the deletion. -/
theorem newManager_blocked_sample :
    let w₀ : Stores := fun _ => (⟨[⟨"demo", 1, some ⟨.deployed, ""⟩, "", some "powerful"⟩], by simp⟩,
      ⟨[⟨"demo", 1, "", some "powerful"⟩], by simp⟩)
    ∀ (sched : List ℕ) (i : ℕ) m, ((interleave sched
      (fun _ => memoryFactory.newManager objectSample []) w₀).1 i).outcome? ≠ some (.ok m) := by
  intro w₀ sched i
  have hblocked : memoryFactory.backends.Blocked "ns" ⟨"demo", 1, "", some "powerful"⟩ w₀ :=
    ⟨List.mem_singleton.mpr rfl, _, List.mem_singleton.mpr rfl, rfl⟩
  refine (memoryFactory.newManager_blocked hblocked (fun _ => objectSample) (fun _ => []) sched).2 i rfl
    (Or.inr ⟨rfl, fun r hr => ?_⟩)
  obtain rfl := List.mem_singleton.mp hr
  decide

/-- **When a conversion can be done**: where the storages answer, exactly if no version of the resource's
release is stored both ways. -/
theorem convertV2ToV3_resumes (h : f.backends.Answers) (object : Values) (w : ω) :
    ((f.convertV2ToV3 object).run w).1 = .ok () ↔ ∀ r, r.name = f.getLegacyName object ∨
      r.name = getName object ∧ f.NoneV2 (getNamespace object) (f.getLegacyName object) w →
      ¬ f.backends.Blocked (getNamespace object) r w := by
  refine ⟨fun hok r hdue hblocked => ?_, f.convertV2ToV3_answers h object⟩
  have hheld : f.Held (getNamespace object) r
      (fun r₂ => r₂ ∈ (f.backends.stored w (getNamespace object)).v2) w := ⟨hblocked, fun _ h => h⟩
  exact (Holds.run (f.convertV2ToV3_held object w hheld) () hok).2 rfl hdue

theorem memoryBackends_answers : memoryBackends.Answers where
  createRelease _ := ⟨_, rfl⟩
  createV3 ns r w hfree := by
    have hnew : ∀ r' ∈ (w ns).1.1, r'.key ≠ r.key := hfree
    show (dite _ _ _ : Except GoError Unit × Stores).1 = _
    rw [dif_pos hnew]
  historyV2 ns n w := by
    show (∃ rs, ite _ _ _ = Except.ok rs ∧ _) ∨ ∃ e, ite _ _ _ = Except.error e ∧ _
    split
    · exact Or.inr ⟨_, rfl, by decide⟩
    · exact Or.inl ⟨_, rfl, (List.Nodup.of_map _ (w ns).2.2).filter _⟩
  deleteV2 ns n v w := by
    rintro ⟨r, hr, hkey⟩
    show (ite _ _ _ : Except GoError Unit × Stores).1 = _
    rw [if_neg fun hnone => hnone r hr hkey]

/-- The second version of two is left. -/
theorem convertV2ToV3_resumes_sample :
    let w : Stores := fun _ => (⟨[⟨"demo", 1, some ⟨.deployed, ""⟩, "", none⟩], by simp⟩,
      ⟨[⟨"demo", 2, "", none⟩], by simp⟩)
    ((memoryFactory.convertV2ToV3 objectSample).run w).1 = .ok () := by
  intro w
  refine (memoryFactory.convertV2ToV3_resumes memoryBackends_answers objectSample w).mpr ?_
  rintro r - ⟨hr, r', hr', hkey⟩
  obtain rfl := List.mem_singleton.mp hr
  obtain rfl := List.mem_singleton.mp hr'
  exact absurd hkey (by decide)

end ReleaseManagerFactory

end Powerful.Helm
