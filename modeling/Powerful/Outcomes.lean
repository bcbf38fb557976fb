import Mathlib
import Powerful.Resumption

/-! # Programs and their outcomes

`Ensures I Q p`: from a state with `I` the program `p`, run alone, ends with an outcome and a state of
which `Q` holds.  It is `Leads` with the outcome in view, for programs whose caller goes different
ways behind a result and behind an exception.  There is one rule for each construct; `attemptBind` is
the rule of a caller that catches.

`Amid R G I Q p` is the same beside other programs: their steps are in the preorder `R`, which keeps
what the conditions say, and those of `p` in `G`.  `interleave_amid` puts such programs together. -/

namespace Resumption

namespace Prog

variable {σ ε α β : Type}

def Ensures (I : σ → Prop) (Q : Except ε α → σ → Prop) (p : Prog σ ε α) : Prop :=
  ∀ s, I s → Q (p.run s).1 (p.run s).2

section rules
variable {I I' : σ → Prop} {Q Q' : Except ε α → σ → Prop}

theorem Ensures.mono {p : Prog σ ε α} (h : Ensures I Q p) (hQ : ∀ o s, Q o s → Q' o s) :
    Ensures I Q' p := fun s hs => hQ _ _ (h s hs)

theorem Ensures.weaken {p : Prog σ ε α} (h : Ensures I Q p) (hI : ∀ s, I' s → I s) :
    Ensures I' Q p := fun s hs => h s (hI s hs)

theorem Ensures.pure {a : α} (h : ∀ s, I s → Q (.ok a) s) : Ensures I Q (Prog.pure a) := h

theorem Ensures.throw {e : ε} (h : ∀ s, I s → Q (.error e) s) : Ensures I Q (Prog.throw e) := h

theorem Ensures.atomic {f : σ → Except ε α × σ} (h : ∀ s, I s → Q (f s).1 (f s).2) :
    Ensures I Q (Prog.atomic f) := fun s hs => by
  rw [run_atomic]
  exact h s hs

theorem Ensures.modify {Q : Except ε Unit → σ → Prop} {f : σ → σ} (h : ∀ s, I s → Q (.ok ()) (f s)) :
    Ensures I Q (Prog.modify f) := h

theorem Ensures.ofExcept {r : Except ε α} (h : ∀ s, I s → Q r s) : Ensures I Q (Prog.ofExcept r) :=
  fun s hs => by
    rw [run_ofExcept]
    exact h s hs

/-- An exception ends the sequence. -/
theorem Ensures.bind {T : Except ε β → σ → Prop} {p : Prog σ ε β} {f : β → Prog σ ε α}
    (hp : Ensures I T p) (hf : ∀ b, Ensures (T (.ok b)) Q (f b))
    (herror : ∀ e s, T (.error e) s → Q (.error e) s) : Ensures I Q (p >>= f) := fun s hs => by
  have hpost := hp s hs
  rw [run_bind]
  cases hrun : p.run s with
  | mk outcome s' =>
    rw [hrun] at hpost
    cases outcome with
    | ok b => exact hf b s' hpost
    | error e => exact herror e s' hpost

/-- Sequencing behind a program that does not throw. -/
theorem Ensures.seq {K : β → σ → Prop} {p : Prog σ ε β} {f : β → Prog σ ε α}
    (hp : Ensures I (fun o s => ∃ b, o = .ok b ∧ K b s) p) (hf : ∀ b, Ensures (K b) Q (f b)) :
    Ensures I Q (p >>= f) := by
  refine Ensures.bind hp (fun b s hs => ?_) ?_
  · obtain ⟨_, ⟨⟩, hK⟩ := hs
    exact hf b s hK
  · rintro e s ⟨_, ⟨⟩, -⟩

theorem Ensures.ofExists {ι : Type} {J : ι → σ → Prop} {p : Prog σ ε α} (h : ∀ i, Ensures (J i) Q p) :
    Ensures (fun s => ∃ i, J i s) Q p := fun s ⟨i, hs⟩ => h i s hs

theorem Ensures.given {φ : Prop} {p : Prog σ ε α} (h : φ → Ensures I Q p) :
    Ensures (fun s => φ ∧ I s) Q p := fun s ⟨hφ, hs⟩ => h hφ s hs

/-- A caller that goes on behind any outcome. -/
theorem Ensures.attemptBind {T : Except ε β → σ → Prop} {p : Prog σ ε β}
    {f : Except ε β → Prog σ ε α} (hp : Ensures I T p) (hf : ∀ o, Ensures (T o) Q (f o)) :
    Ensures I Q (p.attempt >>= f) := fun s hs => by
  rw [run_bind, run_attempt]
  exact hf _ _ (hp s hs)

theorem Ensures.readBind {f : σ → β} {p : β → Prog σ ε α}
    (h : ∀ b, Ensures (fun s => I s ∧ f s = b) Q (p b)) : Ensures I Q (Prog.read f >>= p) :=
  fun s hs => h (f s) s ⟨hs, rfl⟩

theorem Leads.ensures {J : σ → Prop} {p : Prog σ ε α} (h : Leads I J p) :
    Ensures I (fun _ => J) p := h

theorem Ensures.and {p : Prog σ ε α} (h : Ensures I Q p) (h' : Ensures I Q' p) :
    Ensures I (fun o s => Q o s ∧ Q' o s) p := fun s hs => ⟨h s hs, h' s hs⟩

theorem Ensures.of_run {p : Prog σ ε α} (h : Ensures I Q p) {s s' : σ} {o : Except ε α} (hs : I s)
    (hrun : p.run s = (o, s')) : Q o s' := by
  have hpost := h s hs
  rwa [hrun] at hpost

end rules

/-! ### Amid other programs -/

/-- The steps of `R` keep `I`. -/
def Stable (R : σ → σ → Prop) (I : σ → Prop) : Prop := ∀ s t, R s t → I s → I t

theorem Stable.and {R : σ → σ → Prop} {I J : σ → Prop} (hI : Stable R I) (hJ : Stable R J) :
    Stable R fun s => I s ∧ J s := fun s t hst hs => ⟨hI s t hst hs.1, hJ s t hst hs.2⟩

theorem Stable.imp {R : σ → σ → Prop} {φ : Prop} {I : σ → Prop} (hI : φ → Stable R I) :
    Stable R fun s => φ → I s := fun s t hst hs hφ => hI hφ s t hst (hs hφ)

theorem Stable.const (R : σ → σ → Prop) (φ : Prop) : Stable R fun _ => φ := fun _ _ _ h => h

def Amid (R G : σ → σ → Prop) (I : σ → Prop) (Q : Except ε α → σ → Prop) (p : Prog σ ε α) : Prop :=
  ∀ s, I s → Holds R G Q p s

section amid
variable {R G : σ → σ → Prop} {I I' : σ → Prop} {Q Q' : Except ε α → σ → Prop}

theorem Amid.mono {p : Prog σ ε α} (h : Amid R G I Q p) (hQ : ∀ o s, Q o s → Q' o s) : Amid R G I Q' p :=
  fun s hs => Holds.mono hQ (h s hs)

theorem Amid.weaken {p : Prog σ ε α} (h : Amid R G I Q p) (hI : ∀ s, I' s → I s) : Amid R G I' Q p :=
  fun s hs => h s (hI s hs)

theorem Amid.pure {a : α} (hI : Stable R I) (h : ∀ s, I s → Q (.ok a) s) : Amid R G I Q (Prog.pure a) :=
  fun s hs t hst => h t (hI s t hst hs)

theorem Amid.throw {e : ε} (hI : Stable R I) (h : ∀ s, I s → Q (.error e) s) :
    Amid R G I Q (Prog.throw e) := fun s hs t hst => h t (hI s t hst hs)

theorem Amid.ofExcept {r : Except ε α} (hI : Stable R I) (h : ∀ s, I s → Q r s) :
    Amid R G I Q (Prog.ofExcept r) := fun s hs => Holds.ofExcept fun t hst => h t (hI s t hst hs)

/-- One step; what it does is looked at before the others go on. -/
theorem Amid.atomic {f : σ → Except ε α × σ} (hI : Stable R I) (hQ : ∀ o, Stable R (Q o))
    (h : ∀ s, I s → G s (f s).2 ∧ Q (f s).1 (f s).2) : Amid R G I Q (Prog.atomic f) := fun s hs =>
  Holds.atomic fun t hst =>
    have hstep := h t (hI s t hst hs)
    ⟨hstep.1, fun t' ht' => hQ _ _ t' ht' hstep.2⟩

theorem Amid.modify {Q : Except ε Unit → σ → Prop} {f : σ → σ} (hI : Stable R I) (hQ : Stable R (Q (.ok ())))
    (h : ∀ s, I s → G s (f s) ∧ Q (.ok ()) (f s)) : Amid R G I Q (Prog.modify f) := fun s hs =>
  Holds.modify fun t hst =>
    have hstep := h t (hI s t hst hs)
    ⟨hstep.1, fun t' ht' => hQ _ t' ht' hstep.2⟩

variable [IsPreorder σ R]

theorem Amid.bind {T : Except ε β → σ → Prop} {p : Prog σ ε β} {f : β → Prog σ ε α} (hp : Amid R G I T p)
    (hf : ∀ b, Amid R G (T (.ok b)) Q (f b)) (herror : ∀ e s, T (.error e) s → Q (.error e) s) :
    Amid R G I Q (p >>= f) := fun s hs => by
  refine Holds.bind (Holds.mono (fun o t ht => ?_) (hp s hs))
  cases o with
  | ok b => exact hf b t ht
  | error e => exact herror e t ht

/-- A caller that goes on behind any outcome. -/
theorem Amid.attemptBind {T : Except ε β → σ → Prop} {p : Prog σ ε β} {f : Except ε β → Prog σ ε α}
    (hp : Amid R G I T p) (hf : ∀ o, Amid R G (T o) Q (f o)) : Amid R G I Q (p.attempt >>= f) :=
  fun s hs => Holds.bind (Holds.attempt (Holds.mono (fun o t ht => hf o t ht) (hp s hs)))

omit [IsPreorder σ R] in
theorem Amid.readBind {J : β → σ → Prop} {f : σ → β} {p : β → Prog σ ε α} (hI : Stable R I)
    (hG : ∀ s, G s s) (hJ : ∀ s, I s → J (f s) s) (h : ∀ b, Amid R G (J b) Q (p b)) :
    Amid R G I Q (Prog.read f >>= p) := fun s hs t hst => ⟨hG t, h (f t) t (hJ t (hI s t hst hs))⟩

/-! What is said of results only. -/

def Returning (K : α → σ → Prop) (o : Except ε α) (s : σ) : Prop := ∀ a, o = .ok a → K a s

omit [IsPreorder σ R] in
theorem Stable.returning {K : α → σ → Prop} (h : ∀ a, Stable R (K a)) (o : Except ε α) :
    Stable R (Returning K o) := fun s t hst hs a ha => h a s t hst (hs a ha)

omit [IsPreorder σ R] in
theorem Amid.return_ {K : α → σ → Prop} {a : α} (hI : Stable R I) (h : ∀ s, I s → K a s) :
    Amid R G I (Returning (ε := ε) K) (Prog.pure a) := Amid.pure hI fun s hs a' ha' => by
  obtain rfl := Except.ok.inj ha'
  exact h s hs

omit [IsPreorder σ R] in
theorem Amid.fail {K : α → σ → Prop} {e : ε} (I : σ → Prop) : Amid R G I (Returning K) (Prog.throw e) :=
  fun _ _ _ _ _ ha => by cases ha

theorem Amid.andThen {K : β → σ → Prop} {K' : α → σ → Prop} {p : Prog σ ε β} {f : β → Prog σ ε α}
    (hp : Amid R G I (Returning K) p) (hf : ∀ b, Amid R G (K b) (Returning K') (f b)) :
    Amid R G I (Returning K') (p >>= f) :=
  Amid.bind hp (fun b => Amid.weaken (hf b) fun _ hs => hs b rfl) fun _ _ _ _ ha => by cases ha

/-- Sequencing, with what holds whatever the outcome. -/
theorem Amid.keepThen {J : σ → Prop} {K : β → σ → Prop} {K' : α → σ → Prop} {p : Prog σ ε β}
    {f : β → Prog σ ε α} (hp : Amid R G I (fun o s => J s ∧ Returning K o s) p)
    (hf : ∀ b, Amid R G (fun s => J s ∧ K b s) (fun o s => J s ∧ Returning K' o s) (f b)) :
    Amid R G I (fun o s => J s ∧ Returning K' o s) (p >>= f) :=
  Amid.bind hp (fun b => Amid.weaken (hf b) fun _ hs => ⟨hs.1, hs.2 b rfl⟩)
    fun _ _ hs => ⟨hs.1, fun _ ha => by cases ha⟩

omit [IsPreorder σ R] in
/-- A program of which only the steps are known. -/
theorem Amid.ofSteps [IsPreorder σ G] {p : Prog σ ε α} (hp : p.Steps G) (hI : Stable G I) :
    Amid G G I (Returning fun _ => I) p := fun s hs =>
  Holds.mono (fun _ t hst _ _ => hI s t hst hs) (hp.holds s)

omit [IsPreorder σ R] in
/-- What all steps keep still holds at the end. -/
theorem Amid.frame {J : σ → Prop} (hR : Stable R J) (hG : Stable G J) {p : Prog σ ε α}
    (h : Amid R G I Q p) : Amid R G (fun s => I s ∧ J s) (fun o s => Q o s ∧ J s) p := by
  have aux : ∀ s, Holds R G Q p s → J s → Holds R G (fun o s => Q o s ∧ J s) p s := by
    clear h
    induction p with
    | pure a => exact fun s h hs t ht => ⟨h t ht, hR s t ht hs⟩
    | throw e => exact fun s h hs t ht => ⟨h t ht, hR s t ht hs⟩
    | act upd next ih =>
        intro s h hs t ht
        obtain ⟨hstep, hnext⟩ := h t ht
        exact ⟨hstep, ih t _ hnext (hG _ _ hstep (hR s t ht hs))⟩
  exact fun s hs => aux s (h s hs.1) hs.2

omit [IsPreorder σ R] in
theorem Amid.keeping {K : α → σ → Prop} {J : σ → Prop} {p : Prog σ ε α} (hJ : Stable G J)
    (h : Amid G G I (Returning K) p) :
    Amid G G (fun s => I s ∧ J s) (Returning fun a s => K a s ∧ J s) p :=
  Amid.mono (Amid.frame hJ hJ h) fun _ _ hs a ha => ⟨hs.1 a ha, hs.2⟩

omit [IsPreorder σ R] in
theorem Amid.given {φ : Prop} {p : Prog σ ε α} (h : φ → Amid R G I Q p) :
    Amid R G (fun s => φ ∧ I s) Q p := fun s hs => h hs.1 s hs.2

end amid

end Prog

variable {σ ε α ι : Type} [DecidableEq ι]

/-- At every moment of an interleaving the state follows the first one, and of the programs that have
ended their conditions hold. -/
theorem interleave_amid {T : σ → σ → Prop} [IsPreorder σ T] {R G : ι → σ → σ → Prop}
    [∀ i, IsPreorder σ (R i)] (hT : ∀ i s t, G i s t → T s t)
    (hG : ∀ i j, i ≠ j → ∀ s t, G i s t → R j s t) {I : ι → σ → Prop}
    {Q : ι → Except ε α → σ → Prop} {ps : ι → Prog σ ε α} (h : ∀ i, (ps i).Amid (R i) (G i) (I i) (Q i))
    {s : σ} (hs : ∀ i, I i s) (sched : List ι) : T s (interleave sched ps s).2 ∧
      ∀ i o, ((interleave sched ps s).1 i).outcome? = some o → Q i o (interleave sched ps s).2 := by
  have hholds : ∀ i, (ps i).Holds (R i) (G i) (Q i) s := fun i => h i s (hs i)
  refine ⟨?_, fun i o hi => interleave_outcome hG hholds hi⟩
  clear h hs
  induction sched generalizing ps s with
  | nil => exact refl s
  | cons j sched ih =>
      have hnext := interleave_holds hG [j] ps s hholds
      have hstep : T s ((ps j).step s).2 := by
        cases hj : ps j with
        | pure a => exact refl s
        | throw e => exact refl s
        | act upd next =>
            have hact := hholds j
            rw [hj] at hact
            exact hT j s _ (hact s (refl s)).1
      exact trans_of T hstep (ih hnext)

/-- Programs whose steps are all in the same preorder. -/
theorem interleave_alike {G : σ → σ → Prop} [IsPreorder σ G] {I : ι → σ → Prop}
    {Q : ι → Except ε α → σ → Prop} {ps : ι → Prog σ ε α} (h : ∀ i, (ps i).Amid G G (I i) (Q i)) {s : σ}
    (hs : ∀ i, I i s) (sched : List ι) : G s (interleave sched ps s).2 ∧
      ∀ i o, ((interleave sched ps s).1 i).outcome? = some o → Q i o (interleave sched ps s).2 :=
  interleave_amid (R := fun _ => G) (G := fun _ => G) (fun _ _ _ h => h) (fun _ _ _ _ _ h => h) h hs sched

end Resumption
