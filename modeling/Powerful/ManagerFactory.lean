import Mathlib
import Powerful.ReleaseManager

/-! # Making a release manager

`newManager` makes the manager of a custom resource.  Before that it converts what Helm 2 has stored of
the resource's release into versions of Helm 3, and it finds out the name of the release: the legacy
name, which has the UID of the resource in it, if a version with it is stored, else the name of the
resource.

Several workers make managers at the same time, a call to a storage that fails may have done its work,
and the operator may be stopped at any moment.  No version is lost all the same, and the name does not
depend on the order of the steps: `newManager_adopts`. -/

namespace Powerful.Helm

open Resumption

/-! ### Storages -/

/-- A version of a release of Helm 2. -/
structure ReleaseV2 where
  name : String
  version : ℤ
  manifest : String
  chart : Option String
  deriving DecidableEq

def ReleaseV2.key (r : ReleaseV2) : String × ℤ := (r.name, r.version)

/-- What a namespace holds. -/
structure Stored where
  v2 : List ReleaseV2
  v3 : List ReleaseRecord

namespace Stored

def deleteV2 (key : String × ℤ) (s : Stored) : Stored := { s with v2 := s.v2.filter fun r => r.key ≠ key }

def createV3 (r : ReleaseRecord) (s : Stored) : Stored := { s with v3 := r :: s.v3 }

end Stored

/-- The storages of the namespaces.  A call that fails may have done its work.  `createRelease` is the
conversion of a version; what it gives has the same key. -/
structure Backends (ω : Type) where
  stored : ω → String → Stored
  v3 : String → ReleaseStorage ω
  createV3 : String → ReleaseRecord → ω → Except GoError Unit × ω
  historyV2 : String → String → ω → Except GoError (List ReleaseV2) × ω
  deleteV2 : String → String → ℤ → ω → Except GoError Unit × ω
  createRelease : ReleaseV2 → Except GoError ReleaseRecord
  keysV2 : ∀ w ns, ((stored w ns).v2.map ReleaseV2.key).Nodup
  records_v3 : ∀ ns w, (v3 ns).records w = (stored w ns).v3
  stored_historyV3 : ∀ ns n w, stored ((v3 ns).history n w).2 = stored w
  stored_historyV2 : ∀ ns n w, stored (historyV2 ns n w).2 = stored w
  createV3_ok : ∀ ns r w w', createV3 ns r w = (.ok (), w') →
    (∀ r' ∈ (stored w ns).v3, r'.key ≠ r.key) ∧
    stored w' = Function.update (stored w) ns ((stored w ns).createV3 r)
  createV3_any : ∀ ns r w, stored (createV3 ns r w).2 = stored w ∨
    stored (createV3 ns r w).2 = Function.update (stored w) ns ((stored w ns).createV3 r)
  historyV2_ok : ∀ ns n w rs w', historyV2 ns n w = (.ok rs, w') →
    ∀ r, r ∈ rs ↔ r ∈ (stored w ns).v2 ∧ r.name = n
  historyV2_notFound : ∀ ns n w e w', historyV2 ns n w = (.error e, w') → notFoundErr e = true →
    ∀ r ∈ (stored w ns).v2, r.name ≠ n
  deleteV2_ok : ∀ ns n v w w', deleteV2 ns n v w = (.ok (), w') →
    stored w' = Function.update (stored w) ns ((stored w ns).deleteV2 (n, v))
  deleteV2_any : ∀ ns n v w, stored (deleteV2 ns n v w).2 = stored w ∨
    stored (deleteV2 ns n v w).2 = Function.update (stored w) ns ((stored w ns).deleteV2 (n, v))
  createRelease_key : ∀ r r', createRelease r = .ok r' → r'.key = r.key

/-! ### The factory -/

variable {ω χ : Type}

/-- A call whose outcome is looked at. -/
def contact {α : Type} (f : ω → α × ω) : Prog ω GoError α := .atomic fun w => (.ok (f w).1, (f w).2)

/-- A call that may fail and changes nothing. -/
def peek {α : Type} (f : ω → Except GoError α) : Prog ω GoError α := .atomic fun w => (f w, w)

/-- Put a text in front of what the error says. -/
def orWrap {α : Type} (text : String) (p : Prog ω GoError α) : Prog ω GoError α := do
  let outcome ← p.attempt
  .ofExcept (outcome.mapError fun e => e.wrap text)

/-- What the manager of the operator gives, and the libraries that `NewManager` calls. -/
structure ReleaseManagerFactory (ω χ : Type) extends ManagerFactory where
  backends : Backends ω
  newForConfig : ω → Except GoError Unit
  newRESTClientGetter : String → ω → Except GoError Unit
  ownerRefClient : Values → OwnerRefInjectingClient ω
  actionConfig : Values → Actions ω χ
  jsonPatch : JsonPatch
  loadDir : ω → Except GoError χ
  chartName : χ → String
  parseUUID : String → Except GoError (List UInt8)
  encodeBytes : List UInt8 → String
  stored_candidate : ∀ object u n c v w, u.dryRun = true →
    backends.stored ((actionConfig object).upgrade u n c v w).2 = backends.stored w

/-- A string of the metadata; there is none if there is no string. -/
def getMetadata (field : String) (object : Values) : String :=
  match nested ["metadata", field] (.obj object.fields) with
  | some (.str s) => s
  | _ => ""

def getName : Values → String := getMetadata "name"

def getNamespace : Values → String := getMetadata "namespace"

def getUID : Values → String := getMetadata "uid"

namespace ReleaseManagerFactory
variable (f : ReleaseManagerFactory ω χ)

def shortenUID (uid : String) : String :=
  match f.parseUUID uid with
  | .error _ => String.ofList (uid.toList.filter fun c => c ≠ '-')
  | .ok uidBytes => (f.encodeBytes uidBytes).toLower

def getLegacyName (object : Values) : String := getName object ++ "-" ++ f.shortenUID (getUID object)

/-! #### Histories -/

def releaseHistoryV2 (ns releaseName : String) : Prog ω GoError (List ReleaseV2 × Bool) := do
  let history ← contact (f.backends.historyV2 ns releaseName)
  match history with
  | .error e => if notFoundErr e then pure ([], false) else .throw e
  | .ok releaseHistory => pure (releaseHistory, 0 < releaseHistory.length)

def releaseHistoryV3 (ns releaseName : String) : Prog ω GoError (List ReleaseRecord × Bool) := do
  let history ← contact ((f.backends.v3 ns).history releaseName)
  match history with
  | .error e => if notFoundErr e then pure ([], false) else .throw e
  | .ok releaseHistory => pure (releaseHistory, 0 < releaseHistory.length)

/-! #### Conversion -/

def convertHistoryToV3 (ns : String) : List ReleaseV2 → Prog ω GoError Unit
  | [] => pure ()
  | relV2 :: history =>
      match f.backends.createRelease relV2 with
      | .error e => .throw (e.wrap "generate v3 release: ")
      | .ok relV3 => do
          orWrap "create v3 release: " (.atomic (f.backends.createV3 ns relV3))
          orWrap "delete v2 release: " (.atomic (f.backends.deleteV2 ns relV2.name relV2.version))
          convertHistoryToV3 ns history

/-- The versions with the legacy name, or else those with the name of the resource. -/
def convertV2ToV3 (object : Values) : Prog ω GoError Unit := do
  let (legacyHistoryV2, legacyExistsV2) ←
    f.releaseHistoryV2 (getNamespace object) (f.getLegacyName object)
  if legacyExistsV2 then f.convertHistoryToV3 (getNamespace object) legacyHistoryV2
  else do
    let (historyV2, existsV2) ← f.releaseHistoryV2 (getNamespace object) (getName object)
    if existsV2 then f.convertHistoryToV3 (getNamespace object) historyV2
    else pure ()

/-! #### The name of the release -/

/-- A version of another chart says that something else has taken the name of the resource. -/
def getReleaseName (crChartName : String) (object : Values) : Prog ω GoError String := do
  let (_, legacyExists) ← f.releaseHistoryV3 (getNamespace object) (f.getLegacyName object)
  if legacyExists then pure (f.getLegacyName object)
  else do
    let (history, _) ← f.releaseHistoryV3 (getNamespace object) (getName object)
    match history with
    | [] => pure (getName object)
    | first :: _ =>
        match first.chart with
        | none => .throw { message :=
            "could not find chart metadata in release with name \"" ++ getName object ++ "\"" }
        | some existingChartName =>
            if existingChartName ≠ crChartName then
              .throw { message := "duplicate release name: found existing release with name \"" ++
                getName object ++ "\" for chart \"" ++ existingChartName ++ "\"" }
            else pure (getName object)

/-! #### The manager -/

def newManager (object : Values) (overrideValues : List (String × String)) :
    Prog ω GoError (ReleaseManager ω χ) := do
  orWrap "failed to get core/v1 client: " (peek f.newForConfig)
  orWrap "failed to convert releases from v2 to v3: " (f.convertV2ToV3 object)
  orWrap "failed to get REST client getter from manager: "
    (peek (f.newRESTClientGetter (getNamespace object)))
  let crChart ← orWrap "failed to load chart dir: " (peek f.loadDir)
  let releaseName ← orWrap "failed to get helm release name: "
    (f.getReleaseName (f.chartName crChart) object)
  let values ← .ofExcept (f.values object overrideValues)
  pure
    { storageBackend := f.backends.v3 (getNamespace object)
      actionConfig := f.actionConfig object
      kubeClient := f.ownerRefClient object
      jsonPatch := f.jsonPatch
      releaseName := releaseName
      namespace_ := getNamespace object
      chart := crChart
      values := values
      records_candidate := fun u n c v w hdry => by
        rw [f.backends.records_v3, f.backends.records_v3, f.stored_candidate object u n c v w hdry] }

end ReleaseManagerFactory

/-! ### Nothing is lost -/

/-- From `s` to `t` versions of Helm 2 are converted, and nothing else is done. -/
structure Stored.Carried (createRelease : ReleaseV2 → Except GoError ReleaseRecord) (s t : Stored) :
    Prop where
  kept : ∀ r ∈ s.v3, r ∈ t.v3
  fewer : ∀ r ∈ t.v2, r ∈ s.v2
  carried : ∀ r ∈ s.v2, r ∈ t.v2 ∨ ∃ r' ∈ t.v3, createRelease r = .ok r'
  added : ∀ r' ∈ t.v3, r' ∈ s.v3 ∨ ∃ r ∈ s.v2, createRelease r = .ok r'

theorem Stored.Carried.refl (createRelease : ReleaseV2 → Except GoError ReleaseRecord) (s : Stored) :
    s.Carried createRelease s :=
  ⟨fun _ h => h, fun _ h => h, fun _ h => Or.inl h, fun _ h => Or.inl h⟩

theorem Stored.Carried.trans {createRelease : ReleaseV2 → Except GoError ReleaseRecord} {s t u : Stored}
    (hst : s.Carried createRelease t) (htu : t.Carried createRelease u) : s.Carried createRelease u where
  kept r hr := htu.kept r (hst.kept r hr)
  fewer r hr := hst.fewer r (htu.fewer r hr)
  carried r hr := by
    rcases hst.carried r hr with hr | ⟨r', hr', hcreate⟩
    · exact htu.carried r hr
    · exact Or.inr ⟨r', htu.kept r' hr', hcreate⟩
  added r' hr' := by
    rcases htu.added r' hr' with hr' | ⟨r, hr, hcreate⟩
    · exact hst.added r' hr'
    · exact Or.inr ⟨r, hst.fewer r hr, hcreate⟩

/-- A version with the name is stored. -/
def Stored.Has (n : String) (s : Stored) : Prop := (∃ r ∈ s.v2, r.name = n) ∨ ∃ r ∈ s.v3, r.name = n

instance (n : String) (s : Stored) : Decidable (s.Has n) := inferInstanceAs (Decidable (_ ∨ _))

namespace Backends
variable (b : Backends ω)

def Carried (w w' : ω) : Prop := ∀ ns, (b.stored w ns).Carried b.createRelease (b.stored w' ns)

instance : IsPreorder ω b.Carried where
  refl w ns := Stored.Carried.refl b.createRelease (b.stored w ns)
  trans _ _ _ h h' ns := (h ns).trans (h' ns)

theorem Carried.of_eq {w w' : ω} (h : b.stored w' = b.stored w) : b.Carried w w' := fun ns => by
  rw [h]
  exact Stored.Carried.refl b.createRelease (b.stored w ns)

theorem createRelease_name {r : ReleaseV2} {r' : ReleaseRecord} (h : b.createRelease r = .ok r') :
    r'.name = r.name := congrArg Prod.fst (b.createRelease_key r r' h)

/-- Conversions keep the names that are stored. -/
theorem Carried.has_iff {w w' : ω} (h : b.Carried w w') (ns n : String) :
    (b.stored w' ns).Has n ↔ (b.stored w ns).Has n := by
  constructor
  · rintro (⟨r, hr, rfl⟩ | ⟨r', hr', rfl⟩)
    · exact Or.inl ⟨r, (h ns).fewer r hr, rfl⟩
    · rcases (h ns).added r' hr' with hr' | ⟨r, hr, hcreate⟩
      · exact Or.inr ⟨r', hr', rfl⟩
      · exact Or.inl ⟨r, hr, (b.createRelease_name hcreate).symm⟩
  · rintro (⟨r, hr, rfl⟩ | ⟨r', hr', rfl⟩)
    · rcases (h ns).carried r hr with hr | ⟨r', hr', hcreate⟩
      · exact Or.inl ⟨r, hr, rfl⟩
      · exact Or.inr ⟨r', hr', b.createRelease_name hcreate⟩
    · exact Or.inr ⟨r', (h ns).kept r' hr', rfl⟩

/-- The conversion of a stored version is created. -/
theorem carried_createV3 {ns : String} {r : ReleaseV2} {r' : ReleaseRecord}
    (hcreate : b.createRelease r = .ok r') {w : ω}
    (hr : r ∈ (b.stored w ns).v2 ∨ ∃ r' ∈ (b.stored w ns).v3, b.createRelease r = .ok r') :
    b.Carried w (b.createV3 ns r' w).2 := by
  rcases b.createV3_any ns r' w with hsame | hadded
  · exact Carried.of_eq b hsame
  · have hfree : ∀ r'' ∈ (b.stored w ns).v3, r''.key ≠ r'.key := by
      intro r'' hr'' hkey
      have hkeys := (b.v3 ns).keys (b.createV3 ns r' w).2
      rw [b.records_v3, hadded, Function.update_self] at hkeys
      exact (List.nodup_cons.mp hkeys).1 (List.mem_map.mpr ⟨r'', hr'', hkey⟩)
    have hr : r ∈ (b.stored w ns).v2 := by
      refine hr.resolve_right ?_
      rintro ⟨r'', hr'', hcreate'⟩
      rw [hcreate] at hcreate'
      obtain rfl := Except.ok.inj hcreate'
      exact hfree r' hr'' rfl
    intro ns'
    rw [hadded]
    by_cases hns : ns' = ns
    · subst hns
      rw [Function.update_self]
      refine ⟨fun r hr => List.mem_cons_of_mem r' hr, fun r hr => hr, fun r hr => Or.inl hr, ?_⟩
      intro r'' hr''
      rcases List.mem_cons.mp hr'' with rfl | hr''
      · exact Or.inr ⟨r, hr, hcreate⟩
      · exact Or.inl hr''
    · rw [Function.update_of_ne hns]
      exact Stored.Carried.refl b.createRelease (b.stored w ns')

/-- A version is deleted whose conversion is stored. -/
theorem carried_deleteV2 {ns : String} {r : ReleaseV2} {r' : ReleaseRecord}
    (hcreate : b.createRelease r = .ok r') {w : ω} (hr' : r' ∈ (b.stored w ns).v3)
    (hkey : ∀ r₂ ∈ (b.stored w ns).v2, r₂.key = r.key → r₂ = r) :
    b.Carried w (b.deleteV2 ns r.name r.version w).2 := by
  rcases b.deleteV2_any ns r.name r.version w with hsame | hdeleted
  · exact Carried.of_eq b hsame
  · intro ns'
    rw [hdeleted]
    by_cases hns : ns' = ns
    · subst hns
      rw [Function.update_self]
      refine ⟨fun r hr => hr, fun r hr => List.mem_of_mem_filter hr, ?_, fun r hr => Or.inl hr⟩
      intro r₂ hr₂
      by_cases hr₂' : r₂.key = r.key
      · obtain rfl := hkey r₂ hr₂ hr₂'
        exact Or.inr ⟨r', hr', hcreate⟩
      · exact Or.inl (List.mem_filter.mpr ⟨hr₂, decide_eq_true hr₂'⟩)
    · rw [Function.update_of_ne hns]
      exact Stored.Carried.refl b.createRelease (b.stored w ns')

end Backends

/-! ### What a factory does amid others -/

section amid
open Prog

namespace Backends
variable (b : Backends ω)

theorem stable_carried (w₀ : ω) : Stable b.Carried (b.Carried w₀) := fun _ _ h hw => trans_of b.Carried hw h

theorem stable_v2 (ns : String) (P : ReleaseV2 → Prop) :
    Stable b.Carried fun w => ∀ r ∈ (b.stored w ns).v2, P r := fun _ _ h hw r hr => hw r ((h ns).fewer r hr)

theorem stable_v3 (ns : String) (P : ReleaseRecord → Prop) :
    Stable b.Carried fun w => ∃ r ∈ (b.stored w ns).v3, P r :=
  fun _ _ h ⟨r, hr, hP⟩ => ⟨r, (h ns).kept r hr, hP⟩

end Backends

section calls
variable {G : ω → ω → Prop} [IsPreorder ω G] {α : Type} {I : ω → Prop} {K : α → ω → Prop}

omit [IsPreorder ω G] in
theorem contact_amid {f : ω → α × ω} (hI : Stable G I) (hK : ∀ a, Stable G (K a))
    (h : ∀ w, I w → G w (f w).2 ∧ K (f w).1 (f w).2) : Amid G G I (Returning K) (contact f) :=
  Amid.atomic hI (Stable.returning hK) fun w hw => ⟨(h w hw).1, fun a ha => by
    obtain rfl := Except.ok.inj ha
    exact (h w hw).2⟩

theorem peek_amid (hI : Stable G I) (f : ω → Except GoError α) :
    Amid G G I (Returning fun _ => I) (peek f) :=
  Amid.atomic hI (Stable.returning fun _ => hI) fun w hw => ⟨refl w, fun _ _ => hw⟩

theorem orWrap_amid {text : String} {p : Prog ω GoError α} (hK : ∀ a, Stable G (K a))
    (h : Amid G G I (Returning K) p) : Amid G G I (Returning K) (orWrap text p) := by
  refine Amid.attemptBind h fun outcome => Amid.ofExcept (Stable.returning hK outcome) ?_
  intro w hw a ha
  cases outcome with
  | ok a' => exact hw a ha
  | error e => cases ha

end calls

namespace ReleaseManagerFactory
variable (f : ReleaseManagerFactory ω χ) (w₀ : ω) (ns : String)

/-- A history of Helm 2, as it was when it was asked for. -/
structure HistoryV2 (n : String) (history : List ReleaseV2) (w : ω) : Prop where
  carried : f.backends.Carried w₀ w
  old : ∀ r ∈ history, r ∈ (f.backends.stored w₀ ns).v2 ∧ r.name = n
  all : ∀ r ∈ (f.backends.stored w ns).v2, r.name = n → r ∈ history

theorem HistoryV2.stable (n : String) (history : List ReleaseV2) :
    Stable f.backends.Carried (f.HistoryV2 w₀ ns n history) := fun w w' h hw =>
  ⟨f.backends.stable_carried w₀ w w' h hw.carried, hw.old,
    f.backends.stable_v2 ns _ w w' h hw.all⟩

theorem releaseHistoryV2_amid (n : String) : Amid f.backends.Carried f.backends.Carried (f.backends.Carried w₀)
    (Returning fun found w => f.HistoryV2 w₀ ns n found.1 w ∧ (found.2 = true ↔ found.1 ≠ []))
    (f.releaseHistoryV2 ns n) := by
  refine Amid.andThen (K := fun history w => f.backends.Carried w₀ w ∧ match history with
    | .error e => notFoundErr e = true → ∀ r ∈ (f.backends.stored w ns).v2, r.name ≠ n
    | .ok rs => (∀ r ∈ rs, r ∈ (f.backends.stored w₀ ns).v2 ∧ r.name = n) ∧
        ∀ r ∈ (f.backends.stored w ns).v2, r.name = n → r ∈ rs) ?_ fun history => ?_
  · refine contact_amid (f.backends.stable_carried w₀) (fun history => ?_) fun w hw => ?_
    · refine Stable.and (f.backends.stable_carried w₀) ?_
      cases history with
      | error e => exact Stable.imp fun _ => f.backends.stable_v2 ns _
      | ok rs => exact Stable.and (Stable.const _ _) (f.backends.stable_v2 ns _)
    · have hstored := f.backends.stored_historyV2 ns n w
      have hsame := Backends.Carried.of_eq f.backends hstored
      refine ⟨hsame, trans_of f.backends.Carried hw hsame, ?_⟩
      cases hhistory : f.backends.historyV2 ns n w with
      | mk history w' =>
        rw [hhistory] at hstored
        cases history with
        | error e =>
            intro hnotFound r hr
            rw [hstored] at hr
            exact f.backends.historyV2_notFound ns n w e w' hhistory hnotFound r hr
        | ok rs =>
            have hrs := f.backends.historyV2_ok ns n w rs w' hhistory
            refine ⟨fun r hr => ?_, fun r hr hname => ?_⟩
            · exact ⟨(hw ns).fewer r ((hrs r).mp hr).1, ((hrs r).mp hr).2⟩
            · rw [hstored] at hr
              exact (hrs r).mpr ⟨hr, hname⟩
  · cases history with
    | error e =>
        simp only
        split
        · rename_i hnotFound
          refine Amid.return_ (Stable.and (f.backends.stable_carried w₀)
            (Stable.imp fun _ => f.backends.stable_v2 ns _)) fun w hw => ?_
          exact ⟨⟨hw.1, fun r hr => absurd hr List.not_mem_nil,
            fun r hr hname => absurd hname (hw.2 hnotFound r hr)⟩, by simp⟩
        · exact Amid.fail _
    | ok rs =>
        refine Amid.return_ (Stable.and (f.backends.stable_carried w₀)
          (Stable.and (Stable.const _ _) (f.backends.stable_v2 ns _))) fun w hw => ?_
        exact ⟨⟨hw.1, hw.2.1, hw.2.2⟩, by simp [List.length_pos_iff]⟩

/-- A version of the history is converted and deleted; the other ones follow. -/
theorem convertHistoryToV3_amid : ∀ {history : List ReleaseV2},
    (∀ r ∈ history, r ∈ (f.backends.stored w₀ ns).v2) →
    Amid f.backends.Carried f.backends.Carried (f.backends.Carried w₀)
      (Returning fun _ w => f.backends.Carried w₀ w ∧ ∀ r ∈ (f.backends.stored w ns).v2, r ∉ history)
      (f.convertHistoryToV3 ns history)
  | [], _ => Amid.return_ (f.backends.stable_carried w₀) fun _ hw => ⟨hw, fun _ _ => List.not_mem_nil⟩
  | relV2 :: history, hold => by
      obtain ⟨hrel, hrest⟩ := List.forall_mem_cons.mp hold
      have hstable := f.backends.stable_carried w₀
      unfold convertHistoryToV3
      split
      · exact Amid.fail _
      · rename_i relV3 hcreate
        have hcreated := Stable.and hstable (f.backends.stable_v3 ns fun r' => r' = relV3)
        have hdeleted := Stable.and hstable (f.backends.stable_v2 ns fun r => r ≠ relV2)
        refine Amid.andThen (K := fun _ w => f.backends.Carried w₀ w ∧
          ∃ r' ∈ (f.backends.stored w ns).v3, r' = relV3) (orWrap_amid (fun _ => hcreated) ?_) fun _ => ?_
        · refine Amid.atomic hstable (Stable.returning fun _ => hcreated) fun w hw => ?_
          have hstep := f.backends.carried_createV3 hcreate ((hw ns).carried relV2 hrel)
          refine ⟨hstep, fun _ hok => ⟨trans_of f.backends.Carried hw hstep, relV3, ?_, rfl⟩⟩
          have hadded := (f.backends.createV3_ok ns relV3 w _ (Prod.ext hok rfl)).2
          rw [hadded, Function.update_self]
          exact List.mem_cons_self
        refine Amid.andThen (K := fun _ w => f.backends.Carried w₀ w ∧
          ∀ r ∈ (f.backends.stored w ns).v2, r ≠ relV2) (orWrap_amid (fun _ => hdeleted) ?_) fun _ => ?_
        · refine Amid.atomic hcreated (Stable.returning fun _ => hdeleted) fun w ⟨hw, r', hr', heq⟩ => ?_
          subst heq
          have hkey : ∀ r₂ ∈ (f.backends.stored w ns).v2, r₂.key = relV2.key → r₂ = relV2 := fun r₂ hr₂ =>
            List.inj_on_of_nodup_map (f.backends.keysV2 w₀ ns) ((hw ns).fewer r₂ hr₂) hrel
          have hstep := f.backends.carried_deleteV2 hcreate hr' hkey
          refine ⟨hstep, fun _ hok => ⟨trans_of f.backends.Carried hw hstep, fun r hr => ?_⟩⟩
          have hgone := f.backends.deleteV2_ok ns relV2.name relV2.version w _ (Prod.ext hok rfl)
          rw [hgone, Function.update_self] at hr
          rintro rfl
          exact of_decide_eq_true (List.mem_filter.mp hr).2 rfl
        · -- the rest of the history, with what has been deleted so far
          refine Amid.mono (Amid.keeping (f.backends.stable_v2 ns fun r => r ≠ relV2)
            (convertHistoryToV3_amid hrest)) fun o w hQ a ha => ?_
          obtain ⟨⟨hcarried, hgone⟩, hrel'⟩ := hQ a ha
          exact ⟨hcarried, fun r hr => List.not_mem_cons_of_ne_of_not_mem (hrel' r hr) (hgone r hr)⟩

/-- No version of Helm 2 has the name. -/
abbrev NoneV2 (n : String) (w : ω) : Prop := ∀ r ∈ (f.backends.stored w ns).v2, r.name ≠ n

/-- What a conversion leaves of the versions with the legacy name and of those with the other one. -/
structure Converted (legacy n : String) (w : ω) : Prop where
  carried : f.backends.Carried w₀ w
  legacyGone : f.NoneV2 ns legacy w
  gone : f.NoneV2 ns n w ∨ ∃ r ∈ (f.backends.stored w ns).v3, r.name = legacy

theorem Converted.stable (legacy n : String) : Stable f.backends.Carried (f.Converted w₀ ns legacy n) :=
  fun w w' h hw => ⟨f.backends.stable_carried w₀ w w' h hw.carried,
    f.backends.stable_v2 ns _ w w' h hw.legacyGone,
    hw.gone.imp (f.backends.stable_v2 ns _ w w' h) (f.backends.stable_v3 ns _ w w' h)⟩

/-- A history that has a version is converted. -/
theorem convertHistoryToV3_amid' {n : String} {history : List ReleaseV2} (hne : history ≠ []) :
    Amid f.backends.Carried f.backends.Carried (f.HistoryV2 w₀ ns n history)
      (Returning fun _ w => f.backends.Carried w₀ w ∧ f.NoneV2 ns n w ∧
        ∃ r ∈ (f.backends.stored w ns).v3, r.name = n) (f.convertHistoryToV3 ns history) := by
  intro w hw
  refine Amid.mono (Amid.keeping (HistoryV2.stable f w₀ ns n history)
    (f.convertHistoryToV3_amid w₀ ns fun r hr => (hw.old r hr).1)) (fun o w hQ a ha => ?_) w ⟨hw.carried, hw⟩
  obtain ⟨⟨hcarried, hgone⟩, hw⟩ := hQ a ha
  refine ⟨hcarried, fun r hr hname => hgone r hr (hw.all r hr hname), ?_⟩
  obtain ⟨r, hr⟩ := List.exists_mem_of_ne_nil _ hne
  rcases (hcarried ns).carried r (hw.old r hr).1 with hleft | ⟨r', hr', hcreate⟩
  · exact absurd hr (hgone r hleft)
  · exact ⟨r', hr', (f.backends.createRelease_name hcreate).trans (hw.old r hr).2⟩

theorem HistoryV2.none {n : String} {w : ω} (h : f.HistoryV2 w₀ ns n [] w) : f.NoneV2 ns n w :=
  fun r hr hname => List.not_mem_nil (h.all r hr hname)

theorem convertV2ToV3_amid (object : Values) : Amid f.backends.Carried f.backends.Carried (f.backends.Carried w₀)
    (Returning fun _ => f.Converted w₀ (getNamespace object) (f.getLegacyName object) (getName object))
    (f.convertV2ToV3 object) := by
  refine Amid.andThen (f.releaseHistoryV2_amid w₀ _ _) fun ⟨legacyHistoryV2, legacyExistsV2⟩ => ?_
  simp only
  split
  · rename_i hexists
    intro w ⟨hw, hnonempty⟩
    exact Amid.mono (f.convertHistoryToV3_amid' w₀ _ (hnonempty.mp hexists))
      (fun o w hQ a ha => ⟨(hQ a ha).1, (hQ a ha).2.1, Or.inr (hQ a ha).2.2⟩) w hw
  · rename_i hexists
    refine Amid.weaken (Amid.andThen (Amid.keeping (f.backends.stable_v2 _ _)
      (f.releaseHistoryV2_amid w₀ _ (getName object))) fun ⟨historyV2, existsV2⟩ => ?_)
      (I := fun w => f.backends.Carried w₀ w ∧ f.NoneV2 (getNamespace object) (f.getLegacyName object) w)
      fun w hw => ⟨hw.1.carried, ?_⟩
    · simp only
      split
      · rename_i hexists'
        intro w ⟨⟨hw, hnonempty⟩, hlegacy⟩
        exact Amid.mono (Amid.keeping (f.backends.stable_v2 _ _)
          (f.convertHistoryToV3_amid' w₀ _ (hnonempty.mp hexists')))
          (fun o w hQ a ha => ⟨(hQ a ha).1.1, (hQ a ha).2, Or.inl (hQ a ha).1.2.1⟩) w ⟨hw, hlegacy⟩
      · rename_i hexists'
        refine Amid.return_ ?_ fun w ⟨⟨hw, hnonempty⟩, hlegacy⟩ => ?_
        · exact Stable.and (Stable.and (HistoryV2.stable f w₀ _ _ _) (Stable.const _ _))
            (f.backends.stable_v2 _ _)
        · obtain rfl : historyV2 = [] := by_contra fun h => hexists' (hnonempty.mpr h)
          exact ⟨hw.carried, hlegacy, Or.inl (HistoryV2.none f w₀ _ hw)⟩
    · obtain ⟨hw, hnonempty⟩ := hw
      obtain rfl : legacyHistoryV2 = [] := by_contra fun h => hexists (hnonempty.mpr h)
      exact HistoryV2.none f w₀ _ hw

/-! #### The name -/

/-- A history of Helm 3 that is asked for when none of Helm 2 is left. -/
structure HistoryV3 (n : String) (history : List ReleaseRecord) (w : ω) : Prop where
  carried : f.backends.Carried w₀ w
  noneV2 : f.NoneV2 ns n w
  stored : ∀ r ∈ history, r ∈ (f.backends.stored w ns).v3 ∧ r.name = n
  none : history = [] → ¬ (f.backends.stored w₀ ns).Has n

theorem HistoryV3.stable (n : String) (history : List ReleaseRecord) :
    Stable f.backends.Carried (f.HistoryV3 w₀ ns n history) := fun w w' h hw =>
  ⟨f.backends.stable_carried w₀ w w' h hw.carried, f.backends.stable_v2 ns _ w w' h hw.noneV2,
    fun r hr => ⟨(h ns).kept r (hw.stored r hr).1, (hw.stored r hr).2⟩, hw.none⟩

theorem not_has {n : String} {w : ω} (hw : f.backends.Carried w₀ w) (hv2 : f.NoneV2 ns n w)
    (hv3 : ∀ r ∈ (f.backends.stored w ns).v3, r.name ≠ n) : ¬ (f.backends.stored w₀ ns).Has n := by
  rw [← Backends.Carried.has_iff f.backends hw]
  rintro (⟨r, hr, hname⟩ | ⟨r, hr, hname⟩)
  · exact hv2 r hr hname
  · exact hv3 r hr hname

theorem releaseHistoryV3_amid (n : String) :
    Amid f.backends.Carried f.backends.Carried (fun w => f.backends.Carried w₀ w ∧ f.NoneV2 ns n w)
      (Returning fun found w => f.HistoryV3 w₀ ns n found.1 w ∧ (found.2 = true ↔ found.1 ≠ []))
      (f.releaseHistoryV3 ns n) := by
  have hbefore := Stable.and (f.backends.stable_carried w₀) (f.backends.stable_v2 ns fun r => r.name ≠ n)
  refine Amid.andThen (K := fun history w => match history with
    | .error e => notFoundErr e = true → f.HistoryV3 w₀ ns n [] w
    | .ok rs => f.HistoryV3 w₀ ns n rs w) ?_ fun history => ?_
  · refine contact_amid hbefore (fun history => ?_) fun w hw => ?_
    · cases history with
      | error e => exact Stable.imp fun _ => HistoryV3.stable f w₀ ns n []
      | ok rs => exact HistoryV3.stable f w₀ ns n rs
    · have hstored := f.backends.stored_historyV3 ns n w
      have hsame := Backends.Carried.of_eq f.backends hstored
      have hafter := hbefore _ _ hsame hw
      refine ⟨hsame, ?_⟩
      cases hhistory : (f.backends.v3 ns).history n w with
      | mk history w' =>
        rw [hhistory] at hafter hstored
        cases history with
        | error e =>
            refine fun hnotFound => ⟨hafter.1, hafter.2, fun r hr => absurd hr List.not_mem_nil, fun _ => ?_⟩
            refine f.not_has w₀ ns hw.1 hw.2 fun r hr => ?_
            rw [← f.backends.records_v3] at hr
            exact (f.backends.v3 ns).history_notFound n w e w' hhistory hnotFound r hr
        | ok rs =>
            have hrs := (f.backends.v3 ns).history_ok n w rs w' hhistory
            rw [f.backends.records_v3] at hrs
            refine ⟨hafter.1, hafter.2, fun r hr => ?_, fun hnil => ?_⟩
            · rw [hstored]
              exact (hrs r).mp hr
            · refine f.not_has w₀ ns hw.1 hw.2 fun r hr hname => ?_
              rw [hnil] at hrs
              exact List.not_mem_nil ((hrs r).mpr ⟨hr, hname⟩)
  · cases history with
    | error e =>
        simp only
        split
        · rename_i hnotFound
          exact Amid.return_ (Stable.imp fun _ => HistoryV3.stable f w₀ ns n []) fun w hw =>
            ⟨hw hnotFound, by simp⟩
        · exact Amid.fail _
    | ok rs =>
        exact Amid.return_ (HistoryV3.stable f w₀ ns n rs) fun w hw => ⟨hw, by simp [List.length_pos_iff]⟩

theorem getLegacyName_ne (object : Values) : f.getLegacyName object ≠ getName object := fun h => by
  have hlength := congrArg String.length h
  simp only [getLegacyName, String.length_append] at hlength
  have hdash : "-".length = 1 := rfl
  omega

/-- The release with the name is the resource's: no version of Helm 2 is left of it, and if its name is
that of the resource there was no such release, or one of its versions is of the chart. -/
structure Adopted (object : Values) (chart releaseName : String) (w : ω) : Prop where
  carried : f.backends.Carried w₀ w
  name : releaseName = if (f.backends.stored w₀ (getNamespace object)).Has (f.getLegacyName object) then
    f.getLegacyName object else getName object
  noneV2 : f.NoneV2 (getNamespace object) releaseName w
  own : releaseName = getName object → (f.backends.stored w₀ (getNamespace object)).Has releaseName →
    ∃ r ∈ (f.backends.stored w (getNamespace object)).v3, r.name = releaseName ∧ r.chart = some chart

theorem Adopted.stable (object : Values) (chart releaseName : String) :
    Stable f.backends.Carried (f.Adopted w₀ object chart releaseName) := fun w w' h hw =>
  ⟨f.backends.stable_carried w₀ w w' h hw.carried, hw.name, f.backends.stable_v2 _ _ w w' h hw.noneV2,
    fun hname hhas => f.backends.stable_v3 _ _ w w' h (hw.own hname hhas)⟩

theorem getReleaseName_amid (object : Values) (chart : String) :
    Amid f.backends.Carried f.backends.Carried
      (f.Converted w₀ (getNamespace object) (f.getLegacyName object) (getName object))
      (Returning fun releaseName => f.Adopted w₀ object chart releaseName) (f.getReleaseName chart object) := by
  refine Amid.andThen (Amid.weaken (Amid.keeping (Converted.stable f w₀ _ _ _)
    (f.releaseHistoryV3_amid w₀ _ _)) fun w hw => ⟨⟨hw.carried, hw.legacyGone⟩, hw⟩)
    fun ⟨legacyHistory, legacyExists⟩ => ?_
  simp only
  split
  · rename_i hexists
    refine Amid.return_ (Stable.and (Stable.and (HistoryV3.stable f w₀ _ _ _) (Stable.const _ _))
      (Converted.stable f w₀ _ _ _)) fun w ⟨⟨hw, hnonempty⟩, hconverted⟩ => ?_
    obtain ⟨r, hr⟩ := List.exists_mem_of_ne_nil _ (hnonempty.mp hexists)
    have hhas := (Backends.Carried.has_iff f.backends hw.carried _ _).mp (Or.inr ⟨r, hw.stored r hr⟩)
    exact ⟨hw.carried, (if_pos hhas).symm, hconverted.legacyGone,
      fun hname => absurd hname (f.getLegacyName_ne object)⟩
  · rename_i hexists
    -- nothing had the legacy name, so what had the other name is converted
    intro w ⟨⟨hw, hnonempty⟩, hconverted⟩
    have hnot : ¬ (f.backends.stored w₀ (getNamespace object)).Has (f.getLegacyName object) :=
      hw.none (by_contra fun h => hexists (hnonempty.mpr h))
    have hgone : f.NoneV2 (getNamespace object) (getName object) w := by
      refine hconverted.gone.resolve_right fun hr => hnot ?_
      exact (Backends.Carried.has_iff f.backends hw.carried _ _).mp (Or.inr hr)
    refine Amid.andThen (f.releaseHistoryV3_amid w₀ _ (getName object)) (fun ⟨history, found⟩ => ?_) w
      ⟨hw.carried, hgone⟩
    have hstable := Stable.and (HistoryV3.stable f w₀ (getNamespace object) (getName object) history)
      (Stable.const f.backends.Carried (found = true ↔ history ≠ []))
    cases history with
    | nil =>
        exact Amid.return_ hstable fun w hw => ⟨hw.1.carried, (if_neg hnot).symm, hw.1.noneV2,
          fun _ hhas => absurd hhas (hw.1.none rfl)⟩
    | cons first rest =>
        simp only
        split
        · exact Amid.fail _
        · rename_i existingChartName hchart
          split
          · exact Amid.fail _
          · rename_i hsame
            obtain rfl := not_ne_iff.mp hsame
            refine Amid.return_ hstable fun w hw => ⟨hw.1.carried, (if_neg hnot).symm, hw.1.noneV2,
              fun _ _ => ?_⟩
            obtain ⟨hfirst, hname⟩ := hw.1.stored first List.mem_cons_self
            exact ⟨first, hfirst, hname, hchart⟩

/-- A manager of the resource's release. -/
structure Made (object : Values) (m : ReleaseManager ω χ) (w : ω) : Prop where
  storage : m.storageBackend = f.backends.v3 (getNamespace object)
  adopted : f.Adopted w₀ object (f.chartName m.chart) m.releaseName w

theorem newManager_amid (object : Values) (overrideValues : List (String × String)) :
    Amid f.backends.Carried f.backends.Carried (f.backends.Carried w₀) (Returning (f.Made w₀ object))
      (f.newManager object overrideValues) := by
  have hstable := f.backends.stable_carried w₀
  have hconverted := Converted.stable f w₀ (getNamespace object) (f.getLegacyName object) (getName object)
  refine Amid.andThen (orWrap_amid (fun _ => hstable) (peek_amid hstable _)) fun _ => ?_
  refine Amid.andThen (orWrap_amid (fun _ => hconverted) (f.convertV2ToV3_amid w₀ object)) fun _ => ?_
  refine Amid.andThen (orWrap_amid (fun _ => hconverted) (peek_amid hconverted _)) fun _ => ?_
  refine Amid.andThen (orWrap_amid (fun _ => hconverted) (peek_amid hconverted _)) fun crChart => ?_
  refine Amid.andThen (orWrap_amid (fun releaseName => Adopted.stable f w₀ object _ releaseName)
    (f.getReleaseName_amid w₀ object (f.chartName crChart))) fun releaseName => ?_
  have hadopted := Adopted.stable f w₀ object (f.chartName crChart) releaseName
  refine Amid.andThen (K := fun _ => f.Adopted w₀ object (f.chartName crChart) releaseName)
    (Amid.ofExcept hadopted fun w hw _ _ => hw) fun values => ?_
  exact Amid.return_ hadopted fun w hw => ⟨rfl, hw⟩

/-- **Managers made side by side**: at every moment of every order of the steps all that was stored is
stored, as it was or converted, and nothing else; and a manager that has been made is one of the
resource's release. -/
theorem newManager_adopts (w₀ : ω) {ι : Type} [DecidableEq ι] (objects : ι → Values)
    (overrideValues : ι → List (String × String)) (sched : List ι) :
    let reached := interleave sched (fun i => f.newManager (objects i) (overrideValues i)) w₀
    f.backends.Carried w₀ reached.2 ∧
      ∀ i m, (reached.1 i).outcome? = some (.ok m) → f.Made w₀ (objects i) m reached.2 := by
  have hamid := interleave_alike (fun i => f.newManager_amid w₀ (objects i) (overrideValues i))
    (fun _ => refl w₀) sched
  exact ⟨hamid.1, fun i m hm => hamid.2 i (.ok m) hm m rfl⟩

end ReleaseManagerFactory

end amid

end Powerful.Helm
