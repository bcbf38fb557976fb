import Mathlib
import Powerful.ManagerFactory

/-! # Watches of dependent resources

A controller watches the kinds of resources that its releases have.  The hook that a reconciliation runs
behind an installation or an update goes through the documents of the release's manifest and starts a
watch of each kind that the controller has no watch of; a kind that is not in a namespace is not watched
for an owner that is in one.

The workers of a controller share the map of the kinds.  Looking a kind up and putting it in are steps
of their own, with the start of the watch in between, so that workers may start the same watch; but
each of them starts it once, and what the map has is watched: `hooks_cover`. -/

namespace Powerful.Helm

open Resumption

/-! ### Kinds -/

structure GroupVersionKind where
  group : String
  version : String
  kind : String
  deriving DecidableEq

def GroupVersionKind.empty (gvk : GroupVersionKind) : Bool :=
  gvk.group = "" && gvk.version = "" && gvk.kind = ""

def parseGroupVersion (gv : String) : Except GoError (String × String) :=
  if gv = "" ∨ gv = "/" then .ok ("", "")
  else match gv.toList.splitOn '/' with
    | [version] => .ok ("", String.ofList version)
    | [group, version] => .ok (String.ofList group, String.ofList version)
    | _ => .error { message := "unexpected GroupVersion string: " ++ gv }

def topString (field : String) (object : Fields) : String :=
  match object.lookup field with
  | some (.str s) => s
  | _ => ""

/-- The kind of an object; an `apiVersion` that cannot be parsed says that there is none. -/
def groupVersionKind (object : Fields) : GroupVersionKind :=
  match parseGroupVersion (topString "apiVersion" object) with
  | .error _ => ⟨"", "", ""⟩
  | .ok (group, version) => ⟨group, version, topString "kind" object⟩

inductive Scope where
  | root
  | namespace_
  deriving DecidableEq

/-! ### The hook -/

variable {ι ω : Type}

/-- `watches` is the map of the controller.  Ghosts: `started`, the watches and who has started them,
and `ended`, the releases whose hook has succeeded. -/
structure HookState (ι ω : Type) where
  watches : List GroupVersionKind := []
  started : List (ι × GroupVersionKind) := []
  ended : List Release := []
  world : ω

abbrev Hook (ι ω α : Type) := Prog (HookState ι ω) GoError α

/-- The controller's API.  `documents` is what the YAML decoder gives one after the other; the scope of a
kind does not change. -/
structure Watcher (ω : Type) where
  owner : GroupVersionKind
  documents : String → List (Except GoError Fields)
  restMapping : GroupVersionKind → ω → Except GoError Scope × ω
  watch : GroupVersionKind → ω → Except GoError Unit × ω
  scope : GroupVersionKind → Scope
  restMapping_ok : ∀ gvk w s w', restMapping gvk w = (.ok s, w') → s = scope gvk

namespace Watcher
variable (c : Watcher ω) (i : ι)

def mapping (gvk : GroupVersionKind) : Hook ι ω Scope :=
  .atomic fun s => ((c.restMapping gvk s.world).1, { s with world := (c.restMapping gvk s.world).2 })

def startWatch (gvk : GroupVersionKind) : Hook ι ω Unit :=
  .atomic fun s => match c.watch gvk s.world with
    | (.ok (), w) => (.ok (), { s with started := (i, gvk) :: s.started, world := w })
    | (.error e, w) => (.error e, { s with world := w })

def record (gvk : GroupVersionKind) (s : HookState ι ω) : HookState ι ω :=
  { s with watches := s.watches.insert gvk }

def watchDocument (u : Fields) : Hook ι ω Unit :=
  let gvk := groupVersionKind u
  if gvk.empty then pure ()
  else do
    let ok ← .read fun s => decide (gvk ∈ s.watches)
    if ok then pure ()
    else do
      let depScope ← c.mapping gvk
      let ownerScope ← c.mapping c.owner
      if ownerScope ≠ .root ∧ depScope = .root then .modify (record gvk)
      else do
        c.startWatch i gvk
        .modify (record gvk)

def watchDocuments : List (Except GoError Fields) → Hook ι ω Unit
  | [] => pure ()
  | .error e :: _ => .throw e
  | .ok u :: documents => do
      c.watchDocument i u
      watchDocuments documents

def releaseHook (release : Release) : Hook ι ω Unit :=
  c.watchDocuments i (c.documents release.manifest)

/-- What a worker does to the watches: the hooks of its reconciliations, one after the other. -/
def worker : List Release → Hook ι ω Unit
  | [] => pure ()
  | release :: releases => do
      let outcome ← (c.releaseHook i release).attempt
      match outcome with
      | .ok () => do
          .modify fun s => { s with ended := release :: s.ended }
          worker releases
      | .error _ => worker releases

end Watcher

/-! ### What the workers keep -/

namespace Watcher
open Prog
variable (c : Watcher ω)

/-- Not in a namespace, with an owner that is in one. -/
def Exempt (gvk : GroupVersionKind) : Prop := c.scope c.owner ≠ .root ∧ c.scope gvk = .root

/-- The kinds of the documents, those without one apart. -/
def kindsOf (documents : List (Except GoError Fields)) : List GroupVersionKind :=
  (documents.filterMap fun d => d.toOption.map groupVersionKind).filter fun gvk => gvk.empty = false

def kinds (release : Release) : List GroupVersionKind := kindsOf (c.documents release.manifest)

structure Sound (releases : ι → List Release) (s : HookState ι ω) : Prop where
  recorded : ∀ gvk ∈ s.watches, (∃ i, (i, gvk) ∈ s.started) ∨ c.Exempt gvk
  once : s.started.Nodup
  fit : ∀ i gvk, (i, gvk) ∈ s.started → ¬ c.Exempt gvk ∧ ∃ release ∈ releases i, gvk ∈ c.kinds release
  ended : ∀ release ∈ s.ended, ∀ gvk ∈ c.kinds release, gvk ∈ s.watches

/-- What every step does. -/
structure Grows (releases : ι → List Release) (s t : HookState ι ω) : Prop where
  watches : s.watches ⊆ t.watches
  started : s.started ⊆ t.started
  ended : s.ended ⊆ t.ended
  sound : c.Sound releases s → c.Sound releases t

instance (releases : ι → List Release) : IsPreorder (HookState ι ω) (c.Grows releases) where
  refl _ := ⟨fun _ h => h, fun _ h => h, fun _ h => h, fun h => h⟩
  trans _ _ _ h h' := ⟨fun _ hx => h'.watches (h.watches hx), fun _ hx => h'.started (h.started hx),
    fun _ hx => h'.ended (h.ended hx), fun hx => h'.sound (h.sound hx)⟩

/-- What the steps of one worker do. -/
def Own (releases : ι → List Release) (i : ι) (s t : HookState ι ω) : Prop :=
  c.Grows releases s t ∧ ∀ j ≠ i, ∀ gvk, (j, gvk) ∈ t.started → (j, gvk) ∈ s.started

/-- What the steps of the other ones do. -/
def Others (releases : ι → List Release) (i : ι) (s t : HookState ι ω) : Prop :=
  c.Grows releases s t ∧ ∀ gvk, (i, gvk) ∈ t.started → (i, gvk) ∈ s.started

instance (releases : ι → List Release) (i : ι) : IsPreorder (HookState ι ω) (c.Others releases i) where
  refl s := ⟨refl s, fun _ h => h⟩
  trans _ _ _ h h' := ⟨trans_of (c.Grows releases) h.1 h'.1, fun gvk hx => h.2 gvk (h'.2 gvk hx)⟩

section worker
variable (releases : ι → List Release) (i : ι)

/-- Between two documents: what the worker has started is in the map. -/
structure Settled (s : HookState ι ω) : Prop where
  sound : c.Sound releases s
  own : ∀ gvk, (i, gvk) ∈ s.started → gvk ∈ s.watches

theorem Settled.stable : Stable (c.Others releases i) (c.Settled releases i) := fun _ _ h hs =>
  ⟨h.1.sound hs.sound, fun gvk hgvk => h.1.watches (hs.own gvk (h.2 gvk hgvk))⟩

/-- A kind is put into the map that is watched or exempt. -/
theorem Settled.record {s : HookState ι ω} (hs : c.Sound releases s) {gvk : GroupVersionKind}
    (hgvk : (∃ j, (j, gvk) ∈ s.started) ∨ c.Exempt gvk) : c.Own releases i s (record gvk s) := by
  have hsub : s.watches ⊆ s.watches.insert gvk := fun _ h => List.mem_insert_of_mem h
  refine ⟨⟨hsub, fun _ h => h, fun _ h => h, fun _ => ⟨?_, hs.once, hs.fit, ?_⟩⟩, fun _ _ _ h => h⟩
  · intro gvk' hgvk'
    rcases List.mem_insert_iff.mp hgvk' with rfl | hgvk'
    · exact hgvk
    · exact hs.recorded gvk' hgvk'
  · exact fun release hrelease gvk' hgvk' => hsub (hs.ended release hrelease gvk' hgvk')

theorem own_refl (s : HookState ι ω) : c.Own releases i s s := ⟨refl s, fun _ _ _ h => h⟩

/-- A step that only looks something up. -/
theorem own_world (s : HookState ι ω) (w : ω) : c.Own releases i s { s with world := w } :=
  ⟨⟨fun _ h => h, fun _ h => h, fun _ h => h, fun h => ⟨h.recorded, h.once, h.fit, h.ended⟩⟩, fun _ _ _ h => h⟩

theorem mapping_amid {I : HookState ι ω → Prop} (hI : Stable (c.Others releases i) I)
    (hworld : ∀ s w, I s → I { s with world := w }) (gvk : GroupVersionKind) :
    Amid (c.Others releases i) (c.Own releases i) I
      (fun o s => I s ∧ Returning (fun scope _ => scope = c.scope gvk) o s) (c.mapping gvk) :=
  Amid.atomic hI (fun _ => Stable.and hI (Stable.const _ _)) fun s hs =>
    ⟨c.own_world releases i s _, hworld s _ hs, fun scope hscope =>
      c.restMapping_ok gvk s.world scope _ (Prod.ext hscope rfl)⟩

/-- Behind the start of a watch, and before its kind is in the map. -/
structure Starting (gvk : GroupVersionKind) (s : HookState ι ω) : Prop where
  sound : c.Sound releases s
  started : (i, gvk) ∈ s.started
  own : ∀ gvk', (i, gvk') ∈ s.started → gvk' = gvk ∨ gvk' ∈ s.watches

theorem Starting.stable (gvk : GroupVersionKind) :
    Stable (c.Others releases i) (c.Starting releases i gvk) := fun _ _ h hs =>
  ⟨h.1.sound hs.sound, h.1.started hs.started,
    fun gvk' hgvk' => (hs.own gvk' (h.2 gvk' hgvk')).imp_right (h.1.watches ·)⟩

/-- A kind that the worker has found missing. -/
structure Missing (gvk : GroupVersionKind) (s : HookState ι ω) : Prop where
  settled : c.Settled releases i s
  missing : (i, gvk) ∉ s.started

theorem Missing.stable (gvk : GroupVersionKind) :
    Stable (c.Others releases i) (c.Missing releases i gvk) := fun s t h hs =>
  ⟨Settled.stable c releases i s t h hs.settled, fun hstarted => hs.missing (h.2 gvk hstarted)⟩

variable {releases i}

theorem startWatch_amid {gvk : GroupVersionKind} (hexempt : ¬ c.Exempt gvk)
    (hkind : ∃ release ∈ releases i, gvk ∈ c.kinds release) :
    Amid (c.Others releases i) (c.Own releases i) (c.Missing releases i gvk)
      (fun o s => match o with
        | .ok () => c.Starting releases i gvk s
        | .error _ => c.Settled releases i s) (c.startWatch i gvk) := by
  refine Amid.atomic (Missing.stable c releases i gvk) (fun o => ?_) fun s hs => ?_
  · cases o with
    | ok u => exact Starting.stable c releases i gvk
    | error e => exact Settled.stable c releases i
  · obtain ⟨⟨hsound, hown⟩, hmissing⟩ := hs
    rcases c.watch gvk s.world with ⟨outcome, w⟩
    cases outcome with
    | error e =>
        have hsame := (⟨hsound.recorded, hsound.once, hsound.fit, hsound.ended⟩ : c.Sound releases { s with world := w })
        exact ⟨c.own_world releases i s w, hsame, hown⟩
    | ok u =>
        have hsound' : c.Sound releases { s with started := (i, gvk) :: s.started, world := w } := by
          refine ⟨fun gvk' hgvk' => ?_, List.nodup_cons.mpr ⟨hmissing, hsound.once⟩, fun j gvk' hstarted => ?_,
            hsound.ended⟩
          · exact (hsound.recorded gvk' hgvk').imp_left fun ⟨j, hj⟩ => ⟨j, List.mem_cons_of_mem _ hj⟩
          · rcases List.mem_cons.mp hstarted with heq | hstarted
            · obtain ⟨rfl, rfl⟩ := Prod.mk.inj heq
              exact ⟨hexempt, hkind⟩
            · exact hsound.fit j gvk' hstarted
        refine ⟨⟨⟨fun _ h => h, fun _ h => List.mem_cons_of_mem _ h, fun _ h => h, fun _ => hsound'⟩, ?_⟩,
          hsound', List.mem_cons_self, ?_⟩
        · intro j hj gvk' hstarted
          rcases List.mem_cons.mp hstarted with heq | hstarted
          · exact absurd (Prod.mk.inj heq).1 hj
          · exact hstarted
        · intro gvk' hstarted
          rcases List.mem_cons.mp hstarted with heq | hstarted
          · exact Or.inl (Prod.mk.inj heq).2
          · exact Or.inr (hown gvk' hstarted)

/-- The kind of a document is in the map behind it, if nothing has failed. -/
theorem watchDocument_amid (u : Fields) (hkind : (groupVersionKind u).empty = false →
    ∃ release ∈ releases i, groupVersionKind u ∈ c.kinds release) :
    Amid (c.Others releases i) (c.Own releases i) (c.Settled releases i)
      (fun o s => c.Settled releases i s ∧
        Returning (fun _ s => (groupVersionKind u).empty = false → groupVersionKind u ∈ s.watches) o s)
      (c.watchDocument i u) := by
  have hsettled := Settled.stable c releases i
  have hin : ∀ gvk, Stable (c.Others releases i) fun s => gvk ∈ s.watches := fun gvk _ _ h hs => h.1.watches hs
  have hpost := fun o => Stable.and hsettled (Stable.returning (α := Unit) (ε := GoError)
    (fun _ => Stable.imp fun (_ : (groupVersionKind u).empty = false) => hin (groupVersionKind u)) o)
  have hrecord : ∀ {s : HookState ι ω}, c.Sound releases s →
      (∀ gvk', (i, gvk') ∈ s.started → gvk' = groupVersionKind u ∨ gvk' ∈ s.watches) →
      (∃ j, (j, groupVersionKind u) ∈ s.started) ∨ c.Exempt (groupVersionKind u) →
      c.Own releases i s (record (groupVersionKind u) s) ∧
        c.Settled releases i (record (groupVersionKind u) s) := fun {s} hs hown hgvk => by
    have hstep := Settled.record c releases i hs hgvk
    refine ⟨hstep, hstep.1.sound hs, fun gvk' hgvk' => ?_⟩
    rcases hown gvk' hgvk' with rfl | hin
    · exact List.mem_insert_self
    · exact hstep.1.watches hin
  unfold watchDocument
  simp only
  split
  · rename_i hempty
    exact Amid.pure hsettled fun s hs => ⟨hs, fun _ _ hfull => by rw [hempty] at hfull; cases hfull⟩
  · rename_i hempty
    refine Amid.readBind (J := fun found s => if found then c.Settled releases i s ∧ groupVersionKind u ∈ s.watches
      else c.Missing releases i (groupVersionKind u) s) hsettled (c.own_refl releases i) (fun s hs => ?_)
      fun found => ?_
    · by_cases hmem : groupVersionKind u ∈ s.watches
      · rw [decide_eq_true hmem]
        exact ⟨hs, hmem⟩
      · rw [decide_eq_false hmem]
        exact ⟨hs, fun hstarted => hmem (hs.own _ hstarted)⟩
    cases found with
    | true => exact Amid.pure (Stable.and hsettled (hin _)) fun s hs => ⟨hs.1, fun _ _ _ => hs.2⟩
    | false =>
        have hmissing := Missing.stable c releases i (groupVersionKind u)
        have hworld : ∀ (s : HookState ι ω) (w : ω), c.Missing releases i (groupVersionKind u) s →
            c.Missing releases i (groupVersionKind u) { s with world := w } := fun s w hs =>
          ⟨⟨(c.own_world releases i s w).1.sound hs.settled.sound, hs.settled.own⟩, hs.missing⟩
        refine Amid.keepThen (K := fun depScope s => c.Missing releases i (groupVersionKind u) s ∧
          depScope = c.scope (groupVersionKind u)) (Amid.mono (c.mapping_amid releases i hmissing hworld _)
          fun o s hs => ⟨hs.1.settled, fun a ha => ⟨hs.1, hs.2 a ha⟩⟩) fun depScope => ?_
        refine Amid.weaken ?_ fun s hs => hs.2
        refine Amid.keepThen (K := fun ownerScope s => (c.Missing releases i (groupVersionKind u) s ∧
          depScope = c.scope (groupVersionKind u)) ∧ ownerScope = c.scope c.owner)
          (Amid.mono (c.mapping_amid releases i (Stable.and hmissing (Stable.const _ _))
            (fun s w hs => ⟨hworld s w hs.1, hs.2⟩) _)
            fun o s hs => ⟨hs.1.1.settled, fun a ha => ⟨hs.1, hs.2 a ha⟩⟩) fun ownerScope => ?_
        refine Amid.weaken (I := fun s => (depScope = c.scope (groupVersionKind u) ∧
          ownerScope = c.scope c.owner) ∧ c.Missing releases i (groupVersionKind u) s) ?_
          fun s hs => ⟨⟨hs.2.1.2, hs.2.2⟩, hs.2.1.1⟩
        refine Amid.given ?_
        rintro ⟨rfl, rfl⟩
        split
        · rename_i hexempt
          refine Amid.modify hmissing (hpost _) fun s hs => ?_
          obtain ⟨hstep, hafter⟩ := hrecord hs.settled.sound (fun gvk' h => Or.inr (hs.settled.own gvk' h))
            (Or.inr hexempt)
          exact ⟨hstep, hafter, fun _ _ _ => List.mem_insert_self⟩
        · rename_i hexempt
          refine Amid.bind (c.startWatch_amid hexempt (hkind (Bool.eq_false_of_not_eq_true hempty)))
            (fun _ => ?_) fun e s hs => ⟨hs, fun _ ha => by cases ha⟩
          refine Amid.modify (Starting.stable c releases i _) (hpost _) fun s hs => ?_
          obtain ⟨hstep, hafter⟩ := hrecord hs.sound hs.own (Or.inl ⟨i, hs.started⟩)
          exact ⟨hstep, hafter, fun _ _ _ => List.mem_insert_self⟩

theorem kindsOf_cons (u : Fields) (documents : List (Except GoError Fields)) (gvk : GroupVersionKind) :
    gvk ∈ kindsOf (.ok u :: documents) ↔
      (gvk = groupVersionKind u ∧ (groupVersionKind u).empty = false) ∨ gvk ∈ kindsOf documents := by
  simp only [kindsOf, List.mem_filter, List.filterMap_cons, Except.toOption, Option.map_some,
    List.mem_cons, decide_eq_true_eq]
  constructor
  · rintro ⟨rfl | hmem, hempty⟩
    · exact Or.inl ⟨rfl, hempty⟩
    · exact Or.inr ⟨hmem, hempty⟩
  · rintro (⟨rfl, hempty⟩ | ⟨hmem, hempty⟩)
    · exact ⟨Or.inl rfl, hempty⟩
    · exact ⟨Or.inr hmem, hempty⟩

theorem watchDocuments_amid : ∀ {documents : List (Except GoError Fields)},
    (∀ gvk ∈ kindsOf documents, ∃ release ∈ releases i, gvk ∈ c.kinds release) →
    Amid (c.Others releases i) (c.Own releases i) (c.Settled releases i)
      (fun o s => c.Settled releases i s ∧
        Returning (fun _ s => ∀ gvk ∈ kindsOf documents, gvk ∈ s.watches) o s) (c.watchDocuments i documents)
  | [], _ => Amid.pure (Settled.stable c releases i) fun s hs => ⟨hs, fun _ _ _ hgvk => by cases hgvk⟩
  | .error e :: _, _ => Amid.throw (Settled.stable c releases i) fun s hs => ⟨hs, fun _ ha => by cases ha⟩
  | .ok u :: documents, hkinds => by
      simp only [kindsOf_cons] at hkinds ⊢
      refine Amid.keepThen (c.watchDocument_amid u fun hfull => hkinds _ (Or.inl ⟨rfl, hfull⟩)) fun _ => ?_
      refine Amid.mono (Amid.frame (fun s t h hs hfull => h.1.watches (hs hfull))
        (fun s t h hs hfull => h.1.watches (hs hfull))
        (watchDocuments_amid fun gvk hgvk => hkinds gvk (Or.inr hgvk))) fun o s hs => ?_
      refine ⟨hs.1.1, fun a ha gvk hgvk => ?_⟩
      rcases hgvk with ⟨rfl, hfull⟩ | hgvk
      · exact hs.2 hfull
      · exact hs.1.2 a ha gvk hgvk

/-- The hooks of a worker, one after the other. -/
theorem worker_amid : ∀ {rest : List Release}, (∀ release ∈ rest, release ∈ releases i) →
    Amid (c.Others releases i) (c.Own releases i) (c.Settled releases i)
      (fun _ => c.Settled releases i) (c.worker i rest)
  | [], _ => Amid.pure (Settled.stable c releases i) fun _ hs => hs
  | release :: rest, hrest => by
      have hstable := Settled.stable c releases i
      obtain ⟨hrelease, hrest⟩ := List.forall_mem_cons.mp hrest
      refine Amid.attemptBind (c.watchDocuments_amid fun gvk hgvk => ⟨release, hrelease, hgvk⟩) fun outcome => ?_
      cases outcome with
      | error e => exact Amid.weaken (worker_amid hrest) fun s hs => hs.1
      | ok u =>
          refine Amid.bind (T := fun _ => c.Settled releases i) ?_ (fun _ => worker_amid hrest) fun _ _ hs => hs
          refine Amid.modify (Stable.and hstable (Stable.returning (fun _ _ _ h hs gvk hgvk =>
            h.1.watches (hs gvk hgvk)) _)) hstable fun s ⟨hs, hwatches⟩ => ?_
          have hsound : c.Sound releases { s with ended := release :: s.ended } := by
            refine ⟨hs.sound.recorded, hs.sound.once, hs.sound.fit, fun release' hmem gvk hgvk => ?_⟩
            rcases List.mem_cons.mp hmem with rfl | hmem
            · exact hwatches u rfl gvk hgvk
            · exact hs.sound.ended release' hmem gvk hgvk
          exact ⟨⟨⟨fun _ h => h, fun _ h => h, fun _ h => List.mem_cons_of_mem _ h, fun _ => hsound⟩,
            fun _ _ _ h => h⟩, hsound, hs.own⟩

end worker

/-- No kind is watched more often than there are workers. -/
theorem Sound.count_le [Fintype ι] {releases : ι → List Release} {s : HookState ι ω}
    (h : c.Sound releases s) (gvk : GroupVersionKind) :
    (s.started.map Prod.snd).count gvk ≤ Fintype.card ι := by
  have hworkers : ((s.started.filter fun p => p.2 = gvk).map Prod.fst).Nodup := by
    refine List.Nodup.map_on (fun p hp q hq heq => ?_) (h.once.filter _)
    have hsnd := (of_decide_eq_true (List.mem_filter.mp hp).2).trans
      (of_decide_eq_true (List.mem_filter.mp hq).2).symm
    exact Prod.ext heq hsnd
  have hcount : (s.started.map Prod.snd).count gvk = (s.started.filter fun p => p.2 = gvk).length := by
    rw [List.count_eq_countP, List.countP_map, List.countP_eq_length_filter]
    congr 1
  rw [hcount, ← List.length_map (f := Prod.fst)]
  exact hworkers.length_le_card

/-- **Dependent resources are watched**: at every moment of every order of the steps of the workers, what
the map has is watched or exempt; a worker has started each watch once at most, and only of kinds of its
releases that are not exempt; and the kinds of each release whose hook has succeeded are in the map. -/
theorem hooks_cover [DecidableEq ι] [Fintype ι] (releases : ι → List Release) (sched : List ι) (w : ω) :
    let reached := (interleave sched (fun i => c.worker i (releases i)) { world := w }).2
    c.Sound releases reached ∧
      ∀ gvk, (reached.started.map Prod.snd).count gvk ≤ Fintype.card ι := by
  have hstart : c.Sound releases ({ world := w } : HookState ι ω) :=
    ⟨fun _ h => absurd h List.not_mem_nil, List.nodup_nil, fun _ _ h => absurd h List.not_mem_nil,
      fun _ h => absurd h List.not_mem_nil⟩
  have hworkers : ∀ i, (c.worker i (releases i)).Amid (c.Others releases i) (c.Own releases i)
      (c.Settled releases i) (fun _ => c.Settled releases i) :=
    fun i => c.worker_amid fun _ h => h
  have hsound := (interleave_amid (T := c.Grows releases) (fun _ _ _ h => h.1)
    (fun i j hij s t h => ⟨h.1, h.2 j hij.symm⟩) hworkers
    (fun i => ⟨hstart, fun _ h => absurd h List.not_mem_nil⟩) sched).1.sound hstart
  exact ⟨hsound, fun gvk => Sound.count_le c hsound gvk⟩

/-- A cluster that has any kind in a namespace. -/
def watcherSample : Watcher Unit where
  owner := ⟨"apps", "v1", "Powerful"⟩
  documents _ := [.ok [("apiVersion", .str "apps/v1"), ("kind", .str "Deployment")]]
  restMapping _ w := (.ok .namespace_, w)
  watch _ w := (.ok (), w)
  scope _ := .namespace_
  restMapping_ok _ _ _ _ h := (Except.ok.inj (Prod.mk.inj h).1).symm

/-- Two workers that look the kind up before either of them puts it in. -/
example :
    (interleave [0, 1, 0, 0, 0, 0, 1, 1, 1, 1]
      (fun i : Fin 2 => watcherSample.worker i [⟨"demo", "", none⟩]) { world := () }).2.started =
    [(1, ⟨"apps", "v1", "Deployment"⟩), (0, ⟨"apps", "v1", "Deployment"⟩)] := by decide

end Watcher

end Powerful.Helm
