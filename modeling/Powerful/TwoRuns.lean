import Mathlib
import Powerful.Resumption

/-! # Two runs

`Couples R S p q` compares a run of `p` with a run of `q`: from states in `R` they have the same
outcome, and end in states in `S`.  Usually both programs are the same one, and `R` says in what
the two states may differ.

`stateAt f n s` is the state in which the repetition number `n` of `f 0`, `f 1`, … begins. -/

namespace Resumption

namespace Prog

variable {σ ε α β : Type}

/-- Runs of `p` and `q` from states in `R` have the same outcome and end in states in `S`. -/
def Couples (R : σ → σ → Prop) (S : Except ε α → σ → σ → Prop) (p q : Prog σ ε α) : Prop :=
  ∀ s u, R s u → (p.run s).1 = (q.run u).1 ∧ S (p.run s).1 (p.run s).2 (q.run u).2

section rules
variable {R : σ → σ → Prop}

theorem Couples.mono {S S' : Except ε α → σ → σ → Prop} (h : ∀ o s u, S o s u → S' o s u)
    {p q : Prog σ ε α} (hp : Couples R S p q) : Couples R S' p q :=
  fun s u hR => ⟨(hp s u hR).1, h _ _ _ (hp s u hR).2⟩

theorem Couples.pure {S : Except ε α → σ → σ → Prop} {a : α} (h : ∀ s u, R s u → S (.ok a) s u) :
    Couples R S (Prog.pure a) (Prog.pure a) := fun s u hR => ⟨rfl, h s u hR⟩

theorem Couples.throw {S : Except ε α → σ → σ → Prop} {e : ε} (h : ∀ s u, R s u → S (.error e) s u) :
    Couples R S (Prog.throw e) (Prog.throw e) := fun s u hR => ⟨rfl, h s u hR⟩

theorem Couples.ofExcept {S : Except ε α → σ → σ → Prop} {r : Except ε α}
    (h : ∀ s u, R s u → S r s u) : Couples R S (Prog.ofExcept r) (Prog.ofExcept r) := by
  intro s u hR
  rw [run_ofExcept, run_ofExcept]
  exact ⟨rfl, h s u hR⟩

theorem Couples.modify {S : Except ε Unit → σ → σ → Prop} {f g : σ → σ}
    (h : ∀ s u, R s u → S (.ok ()) (f s) (g u)) : Couples R S (Prog.modify f) (Prog.modify g) :=
  fun s u hR => ⟨rfl, h s u hR⟩

theorem Couples.atomic {S : Except ε α → σ → σ → Prop} {f g : σ → Except ε α × σ}
    (h : ∀ s u, R s u → (f s).1 = (g u).1 ∧ S (f s).1 (f s).2 (g u).2) :
    Couples R S (Prog.atomic f) (Prog.atomic g) := by
  intro s u hR
  rw [run_atomic, run_atomic]
  exact h s u hR

/-- Sequencing; an exception of the first parts ends the runs. -/
theorem Couples.bind {T : Except ε α → σ → σ → Prop} {S : Except ε β → σ → σ → Prop}
    {p q : Prog σ ε α} {f g : α → Prog σ ε β} (hp : Couples R T p q)
    (hf : ∀ a, Couples (T (.ok a)) S (f a) (g a)) (he : ∀ e s u, T (.error e) s u → S (.error e) s u) :
    Couples R S (p >>= f) (q >>= g) := by
  intro s u hR
  obtain ⟨hout, hT⟩ := hp s u hR
  cases hrun : p.run s with
  | mk o s' =>
      cases hrun' : q.run u with
      | mk o' u' =>
          rw [hrun, hrun'] at hout hT
          obtain rfl : o = o' := hout
          cases o with
          | ok a =>
              rw [run_bind_ok hrun, run_bind_ok hrun']
              exact hf a s' u' hT
          | error e =>
              rw [run_bind_error hrun, run_bind_error hrun']
              exact ⟨rfl, he e s' u' hT⟩

/-- Sequencing behind a part that returns. -/
theorem Couples.seq {T : σ → σ → Prop} {S : Except ε β → σ → σ → Prop} {p q : Prog σ ε α}
    {f g : α → Prog σ ε β} (hp : Couples R (fun o s u => (∃ a, o = .ok a) ∧ T s u) p q)
    (hf : ∀ a, Couples T S (f a) (g a)) : Couples R S (p >>= f) (q >>= g) := by
  refine Couples.bind hp (fun a s u hT => hf a s u hT.2) fun e s u hT => ?_
  obtain ⟨⟨a, ha⟩, -⟩ := hT
  cases ha

/-- Sequencing behind readings, whose values the continuations may use. -/
theorem Couples.readBind {S : Except ε β → σ → σ → Prop} {f g : σ → α} {p q : α → Prog σ ε β}
    (h : ∀ s u, R s u → ((p (f s)).run s).1 = ((q (g u)).run u).1 ∧
      S ((p (f s)).run s).1 ((p (f s)).run s).2 ((q (g u)).run u).2) :
    Couples R S (Prog.read f >>= p) (Prog.read g >>= q) := by
  intro s u hR
  rw [run_bind_ok (run_read f s), run_bind_ok (run_read g u)]
  exact h s u hR

theorem Couples.attempt {S : Except ε (Except ε α) → σ → σ → Prop} {p q : Prog σ ε α}
    (h : Couples R (fun o s u => S (.ok o) s u) p q) : Couples R S p.attempt q.attempt := by
  intro s u hR
  obtain ⟨hout, hS⟩ := h s u hR
  rw [run_attempt, run_attempt]
  exact ⟨congrArg Except.ok hout, hS⟩

/-- A comparison of a program with itself says what a run alone leads to. -/
theorem Couples.leads {I J : σ → Prop} {S : Except ε α → σ → σ → Prop} {p : Prog σ ε α}
    (hp : Couples (fun s u => s = u ∧ I s) S p p) (hJ : ∀ o s u, S o s u → J s) : Leads I J p :=
  fun s hs => hJ _ _ _ (hp s s ⟨rfl, hs⟩).2

end rules

/-- Continuations that run in the same way behind the first part may be exchanged. -/
theorem run_bind_congr {p : Prog σ ε α} {f g : α → Prog σ ε β} {s : σ}
    (h : ∀ a s', p.run s = (.ok a, s') → (f a).run s' = (g a).run s') :
    (p >>= f).run s = (p >>= g).run s := by
  cases hrun : p.run s with
  | mk o s' =>
      cases o with
      | ok a =>
          rw [run_bind_ok hrun, run_bind_ok hrun]
          exact h a s' hrun
      | error e => rw [run_bind_error hrun, run_bind_error hrun]

/-- The first part may be exchanged for one that runs in the same way. -/
theorem run_bind_left {p q : Prog σ ε α} {f : α → Prog σ ε β} {s : σ} (h : p.run s = q.run s) :
    (p >>= f).run s = (q >>= f).run s := by
  rw [run_bind, run_bind, h]

/-! ### Repetitions -/

/-- The state behind the first `n` of the programs `f 0`, `f 1`, …, whatever their outcomes. -/
def stateAt (f : ℕ → Prog σ ε α) : ℕ → σ → σ
  | 0, s => s
  | n + 1, s => ((f n).run (stateAt f n s)).2

/-- A repetition that returns has the values of the single programs. -/
theorem range_run {f : ℕ → Prog σ ε α} {s₀ : σ} : ∀ {n j : ℕ} {as : List α} {s' : σ},
    (range f j n).run (stateAt f j s₀) = (.ok as, s') →
      as.length = n ∧
      ∀ k a, as[k]? = some a → ((f (j + k)).run (stateAt f (j + k) s₀)).1 = .ok a
  | 0, j, as, s', h => by
      obtain ⟨has, -⟩ := Prod.mk.inj h
      obtain rfl := Except.ok.inj has
      refine ⟨rfl, fun k a hk => ?_⟩
      cases hk
  | n + 1, j, as, s', h => by
      obtain ⟨a, s₁, ha, h⟩ := run_bind_inv h
      obtain ⟨rest, s₂, hrest, h⟩ := run_bind_inv h
      obtain ⟨has, -⟩ := Prod.mk.inj h
      obtain rfl := Except.ok.inj has
      have hs₁ : s₁ = stateAt f (j + 1) s₀ := by
        rw [stateAt, ha]
      rw [hs₁] at hrest
      obtain ⟨hlength, hvalues⟩ := range_run hrest
      refine ⟨by rw [List.length_cons, hlength], fun k b hk => ?_⟩
      cases k with
      | zero =>
          obtain rfl := Option.some.inj hk
          rw [Nat.add_zero, ha]
      | succ k =>
          rw [← Nat.add_assoc, Nat.add_right_comm]
          exact hvalues k b hk

/-- A check of the value leaves the state alone. -/
theorem run_check (p : Prog σ ε α) (c : α → Except ε β) (s : σ) :
    (p >>= fun a => ofExcept (c a)).run s = ((p.run s).1.bind c, (p.run s).2) := by
  cases hrun : p.run s with
  | mk o s' =>
      cases o with
      | ok a => rw [run_bind_ok hrun, run_ofExcept]; rfl
      | error e => rw [run_bind_error hrun]; rfl

theorem stateAt_check (f : ℕ → Prog σ ε α) (c : α → Except ε β) (s : σ) : ∀ n,
    stateAt (fun n => f n >>= fun a => ofExcept (c a)) n s = stateAt f n s
  | 0 => rfl
  | n + 1 => by rw [stateAt, stateAt_check f c s n, run_check, stateAt]

end Prog

end Resumption
