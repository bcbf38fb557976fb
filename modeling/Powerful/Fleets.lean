import Mathlib
import Powerful.Outcomes

/-! # Programs that come and go

`interleave` runs a family of programs that are there from the start and stay.  In a `Fleet` they are
started and stopped at any moment, and something besides them changes the state: `Rules` says what may
be started where and what else may happen, and `Step` is one step of a program or of these.

A `Contract` gives each program a rely, a guarantee and a condition `I` under which it runs, and the state
an invariant `J`.  `Contract.run` is the rule for whole runs. -/

namespace Resumption

/-- A step of a program is in its guarantee, and leaves the rest of it. -/
theorem Prog.Holds.next {σ ε α : Type} {R G : σ → σ → Prop} [IsPreorder σ R] {Q : Except ε α → σ → Prop}
    {p : Prog σ ε α} {s : σ} (h : p.Holds R G Q s) :
    (p.step s).1.Holds R G Q (p.step s).2 ∧ (G s (p.step s).2 ∨ (p.step s).2 = s) := by
  cases p with
  | pure a => exact ⟨h, .inr rfl⟩
  | throw e => exact ⟨h, .inr rfl⟩
  | act upd next =>
      obtain ⟨hstep, hnext⟩ := h s (refl s)
      exact ⟨hnext, .inl hstep⟩

structure Fleet (ι σ ε α : Type) where
  running : ι → Option (Prog σ ε α)
  state : σ

namespace Fleet

/-- What may be started, and what else changes the state while the programs `on` run. -/
structure Rules (ι σ ε α : Type) where
  Starts : σ → ι → Prog σ ε α → Prop
  Env : (ι → Prop) → σ → σ → Prop

variable {ι σ ε α : Type} [DecidableEq ι]

inductive Step (L : Rules ι σ ε α) (S : Fleet ι σ ε α) : Fleet ι σ ε α → Prop
  | act {i : ι} {p : Prog σ ε α} (h : S.running i = some p) :
      Step L S ⟨Function.update S.running i (some (p.step S.state).1), (p.step S.state).2⟩
  | start {i : ι} {p : Prog σ ε α} (hidle : S.running i = none) (h : L.Starts S.state i p) :
      Step L S ⟨Function.update S.running i (some p), S.state⟩
  | stop (i : ι) : Step L S ⟨Function.update S.running i none, S.state⟩
  | env {t : σ} (h : L.Env (fun i => (S.running i).isSome) S.state t) : Step L S ⟨S.running, t⟩

def Reaches (L : Rules ι σ ε α) : Fleet ι σ ε α → Fleet ι σ ε α → Prop := Relation.ReflTransGen (Step L)

/-- One step of the program `i`, if it is running. -/
def act (S : Fleet ι σ ε α) (i : ι) : Fleet ι σ ε α :=
  match S.running i with
  | none => S
  | some p => ⟨Function.update S.running i (some (p.step S.state).1), (p.step S.state).2⟩

/-- A schedule of the programs that are running. -/
theorem reaches_act (L : Rules ι σ ε α) :
    ∀ (sched : List ι) (S : Fleet ι σ ε α), Reaches L S (sched.foldl act S)
  | [], _ => .refl
  | i :: sched, S => by
      refine Relation.ReflTransGen.trans ?_ (reaches_act L sched (S.act i))
      unfold act
      cases h : S.running i with
      | none => exact .refl
      | some p => exact .single (.act h)

/-- The program `i` is running, and has returned `a`. -/
def Returned (S : Fleet ι σ ε α) (i : ι) (a : α) : Prop := S.running i = some (.pure a)

structure Contract (L : Rules ι σ ε α) (R G : ι → σ → σ → Prop) (Q : ι → Except ε α → σ → Prop)
    (I : ι → σ → Prop) (J : σ → Prop) : Prop where
  rely : ∀ i j, i ≠ j → ∀ s t, G i s t → R j s t
  own : ∀ i, Prog.Stable (G i) (I i)
  others : ∀ i, Prog.Stable (R i) (I i)
  inv : ∀ i s t, G i s t → I i s → J s → J t
  env : ∀ on s t, L.Env on s t → J s → J t ∧ ∀ i, on i → R i s t
  starts : ∀ s i p, L.Starts s i p → J s → I i s ∧ p.Holds (R i) (G i) (Q i) s

structure Sound (R G : ι → σ → σ → Prop) (Q : ι → Except ε α → σ → Prop) (I : ι → σ → Prop)
    (J : σ → Prop) (S : Fleet ι σ ε α) : Prop where
  inv : J S.state
  runs : ∀ i p, S.running i = some p → I i S.state ∧ p.Holds (R i) (G i) (Q i) S.state

section contract
variable {L : Rules ι σ ε α} {R G : ι → σ → σ → Prop} {Q : ι → Except ε α → σ → Prop}
  {I : ι → σ → Prop} {J : σ → Prop} {S S' : Fleet ι σ ε α}

omit [DecidableEq ι] in
theorem Sound.init (hJ : J S.state) (h : ∀ i, S.running i = none) : Sound R G Q I J S where
  inv := hJ
  runs i p hp := by
    rw [h i] at hp
    cases hp

theorem forall_update {β : Type} {P : ι → β → Prop} {f : ι → Option β} {i : ι} {o : Option β}
    (hi : ∀ p, o = some p → P i p) (h : ∀ j, j ≠ i → ∀ q, f j = some q → P j q) :
    ∀ j q, Function.update f i o j = some q → P j q := by
  intro j q hq
  rcases eq_or_ne j i with rfl | hij
  · rw [Function.update_self] at hq
    exact hi q hq
  · rw [Function.update_of_ne hij] at hq
    exact h j hij q hq

variable [∀ i, IsPreorder σ (R i)]

theorem Contract.act (hL : Contract L R G Q I J) (hS : Sound R G Q I J S) {i : ι} {p : Prog σ ε α}
    (hp : S.running i = some p) : Sound R G Q I J
      ⟨Function.update S.running i (some (p.step S.state).1), (p.step S.state).2⟩ := by
  obtain ⟨hI, hholds⟩ := hS.runs i p hp
  obtain ⟨hnext, hG | hsame⟩ := hholds.next
  · refine ⟨hL.inv i _ _ hG hI hS.inv, forall_update (fun q hq => ?_) fun j hij q hq => ?_⟩
    · obtain rfl := Option.some.inj hq
      exact ⟨hL.own i _ _ hG hI, hnext⟩
    · obtain ⟨hI', hholds'⟩ := hS.runs j q hq
      have hR := hL.rely i j hij.symm _ _ hG
      exact ⟨hL.others j _ _ hR hI', hholds'.stable hR⟩
  · rw [hsame] at hnext ⊢
    refine ⟨hS.inv, forall_update (fun q hq => ?_) fun j _ => hS.runs j⟩
    obtain rfl := Option.some.inj hq
    exact ⟨hI, hnext⟩

theorem Contract.step (hL : Contract L R G Q I J) (h : Step L S S') (hS : Sound R G Q I J S) :
    Sound R G Q I J S' := by
  cases h with
  | act hp => exact hL.act hS hp
  | start _ hstart =>
      refine ⟨hS.inv, forall_update (fun q hq => ?_) fun j _ => hS.runs j⟩
      obtain rfl := Option.some.inj hq
      exact hL.starts _ _ _ hstart hS.inv
  | stop i => exact ⟨hS.inv, forall_update nofun fun j _ => hS.runs j⟩
  | env henv =>
      obtain ⟨hinv, hR⟩ := hL.env _ _ _ henv hS.inv
      refine ⟨hinv, fun j q hq => ?_⟩
      obtain ⟨hI, hholds⟩ := hS.runs j q hq
      have hon := hR j (Option.isSome_iff_exists.mpr ⟨q, hq⟩)
      exact ⟨hL.others j _ _ hon hI, hholds.stable hon⟩

/-- Under a contract a run never leaves what it promises. -/
theorem Contract.run (hL : Contract L R G Q I J) (h : Reaches L S S') (hS : Sound R G Q I J S) :
    Sound R G Q I J S' := by
  induction h with
  | refl => exact hS
  | tail _ hstep ih => exact hL.step hstep ih

/-- What the programs and their surroundings keep. -/
theorem Contract.along (hL : Contract L R G Q I J) {K : σ → Prop} (hG : ∀ i, Prog.Stable (G i) K)
    (henv : ∀ on s t, L.Env on s t → J s → K s → K t) (h : Reaches L S S') (hS : Sound R G Q I J S)
    (hK : K S.state) : K S'.state := by
  induction h with
  | refl => exact hK
  | @tail T T' hrun hstep ih =>
      have hT : Sound R G Q I J T := hL.run hrun hS
      cases hstep with
      | act hp =>
          obtain ⟨-, hown | hsame⟩ := (hT.runs _ _ hp).2.next
          · exact hG _ _ _ hown ih
          · exact hsame.symm ▸ ih
      | start => exact ih
      | stop => exact ih
      | env hmove => exact henv _ _ _ hmove hT.inv ih

omit [DecidableEq ι] in
theorem Sound.returned (hS : Sound R G Q I J S) {i : ι} {a : α} (h : S.Returned i a) :
    Q i (.ok a) S.state := (hS.runs i _ h).2 _ (refl _)

end contract

end Fleet

end Resumption
