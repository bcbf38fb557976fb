import Mathlib

/-! # Stateful computations with exceptions, cut into atomic steps

`Prog σ ε α` is a computation over a shared state `σ` that returns a value of type `α` or
throws an exception of type `ε`.  Its only effect is the atomic step `act`: an update of the
state, followed by a continuation that has seen the state before the update.  The same
program has two meanings.

* `Prog.run` executes it alone, from a state to an outcome and a final state.  A thrown
  exception keeps the state reached so far.
* `interleave` executes a family of programs under a schedule, one atomic step of the
  scheduled program at a time, all of them over the same state.

`Prog.Holds R G Q p s` is the rely–guarantee triple: when every step of the environment is
in the preorder `R`, every step of `p` started in `s` is in `G`, and `p` ends in an outcome
that satisfies `Q`.  `interleave_holds` is the parallel composition rule: programs whose
guarantees lie in each other's relies keep their triples under every schedule.
`Prog.withCopy` runs a program on a private copy of one component of the state. -/

namespace Resumption

/-- A computation over the state `σ` with exceptions `ε`, cut into atomic steps. -/
inductive Prog (σ ε α : Type) where
  | pure (a : α)
  | throw (e : ε)
  | act (upd : σ → σ) (next : σ → Prog σ ε α)

variable {σ ε α β : Type}

namespace Prog

/-- Sequencing; an exception skips the continuation. -/
def bind (p : Prog σ ε α) (f : α → Prog σ ε β) : Prog σ ε β :=
  match p with
  | .pure a => f a
  | .throw e => .throw e
  | .act upd next => .act upd (fun s => bind (next s) f)

instance : Monad (Prog σ ε) where
  pure := Prog.pure
  bind := Prog.bind

/-- Run `p` to its outcome and hand the outcome on as a value: a `try` that catches all. -/
def attempt : Prog σ ε α → Prog σ ε (Except ε α)
  | .pure a => .pure (.ok a)
  | .throw e => .pure (.error e)
  | .act upd next => .act upd (fun s => attempt (next s))

/-- Return or throw what an outcome says. -/
def ofExcept : Except ε α → Prog σ ε α
  | .ok a => .pure a
  | .error e => .throw e

theorem ofExcept_bind (a : α) (f : α → Prog σ ε β) : (ofExcept (.ok a) >>= f) = f a := rfl

/-- One atomic step that computes an outcome and a new state from the state. -/
def atomic (f : σ → Except ε α × σ) : Prog σ ε α :=
  .act (fun s => (f s).2) (fun s => ofExcept (f s).1)

/-- Read the state. -/
def read (f : σ → α) : Prog σ ε α := .act id (fun s => .pure (f s))

/-- Update the state. -/
def modify (f : σ → σ) : Prog σ ε Unit := .act f (fun _ => .pure ())

/-- Run `f j`, `f (j + 1)`, … and collect the `n` values. -/
def range (f : ℕ → Prog σ ε α) : ℕ → ℕ → Prog σ ε (List α)
  | _, 0 => pure []
  | j, n + 1 => do
      let a ← f j
      let as ← range f (j + 1) n
      pure (a :: as)

/-! ### Sequential execution -/

/-- Execute `p` alone from `s`. -/
def run : Prog σ ε α → σ → Except ε α × σ
  | .pure a, s => (.ok a, s)
  | .throw e, s => (.error e, s)
  | .act upd next, s => run (next s) (upd s)

@[simp] theorem run_pure (a : α) (s : σ) : (pure a : Prog σ ε α).run s = (.ok a, s) := rfl

@[simp] theorem run_pure' (a : α) (s : σ) : (Prog.pure a : Prog σ ε α).run s = (.ok a, s) := rfl

@[simp] theorem run_throw (e : ε) (s : σ) : (Prog.throw e : Prog σ ε α).run s = (.error e, s) :=
  rfl

@[simp] theorem run_act (upd : σ → σ) (next : σ → Prog σ ε α) (s : σ) :
    (Prog.act upd next).run s = (next s).run (upd s) := rfl

theorem run_bind (p : Prog σ ε α) (f : α → Prog σ ε β) (s : σ) :
    (p >>= f).run s = match p.run s with
      | (.ok a, s') => (f a).run s'
      | (.error e, s') => (.error e, s') := by
  show (p.bind f).run s = _
  induction p generalizing s with
  | pure a => rfl
  | throw e => rfl
  | act upd next ih => simpa [bind] using ih s (upd s)

theorem run_bind_ok {p : Prog σ ε α} {f : α → Prog σ ε β} {s s' : σ} {a : α}
    (h : p.run s = (.ok a, s')) : (p >>= f).run s = (f a).run s' := by
  rw [run_bind, h]

theorem run_bind_error {p : Prog σ ε α} {f : α → Prog σ ε β} {s s' : σ} {e : ε}
    (h : p.run s = (.error e, s')) : (p >>= f).run s = (.error e, s') := by
  rw [run_bind, h]

/-- The parts of a run that returns. -/
theorem run_bind_inv {p : Prog σ ε α} {f : α → Prog σ ε β} {s s' : σ} {b : β}
    (h : (p >>= f).run s = (.ok b, s')) :
    ∃ a s₁, p.run s = (.ok a, s₁) ∧ (f a).run s₁ = (.ok b, s') := by
  rw [run_bind] at h
  split at h
  · rename_i a s₁ hrun
    exact ⟨a, s₁, hrun, h⟩
  · cases h

@[simp] theorem run_attempt (p : Prog σ ε α) (s : σ) :
    p.attempt.run s = (.ok (p.run s).1, (p.run s).2) := by
  induction p generalizing s with
  | pure a => rfl
  | throw e => rfl
  | act upd next ih => simpa [attempt] using ih s (upd s)

@[simp] theorem run_ofExcept (r : Except ε α) (s : σ) :
    (ofExcept r : Prog σ ε α).run s = (r, s) := by
  cases r <;> rfl

@[simp] theorem run_atomic (f : σ → Except ε α × σ) (s : σ) : (atomic f).run s = f s := by
  simp [atomic]

@[simp] theorem run_read (f : σ → α) (s : σ) : (read f : Prog σ ε α).run s = (.ok (f s), s) := rfl

@[simp] theorem run_modify (f : σ → σ) (s : σ) :
    (modify f : Prog σ ε Unit).run s = (.ok (), f s) := rfl

/-! ### What a run alone leads to -/

/-- Executed alone from a state in `I`, `p` ends in a state in `J`, whatever its outcome. -/
def Leads (I J : σ → Prop) (p : Prog σ ε α) : Prop := ∀ s, I s → J (p.run s).2

section leads
variable {I J K : σ → Prop}

theorem Leads.pure (h : ∀ s, I s → J s) (a : α) : Leads I J (Prog.pure a : Prog σ ε α) := h

theorem Leads.throw (h : ∀ s, I s → J s) (e : ε) : Leads I J (Prog.throw e : Prog σ ε α) := h

theorem Leads.read (h : ∀ s, I s → J s) (f : σ → α) : Leads I J (Prog.read f : Prog σ ε α) := h

theorem Leads.modify {f : σ → σ} (h : ∀ s, I s → J (f s)) :
    Leads I J (Prog.modify f : Prog σ ε Unit) := h

theorem Leads.ofExcept (h : ∀ s, I s → J s) (r : Except ε α) :
    Leads I J (Prog.ofExcept r : Prog σ ε α) := by
  intro s hs
  rw [run_ofExcept]
  exact h s hs

theorem Leads.atomic {f : σ → Except ε α × σ} (h : ∀ s, I s → J (f s).2) :
    Leads I J (Prog.atomic f) := by
  intro s hs
  rw [run_atomic]
  exact h s hs

theorem Leads.attempt {p : Prog σ ε α} (h : Leads I J p) : Leads I J p.attempt := by
  intro s hs
  rw [run_attempt]
  exact h s hs

/-- Sequencing; the exceptions of the first part end in `K`. -/
theorem Leads.bindVia {p : Prog σ ε α} {f : α → Prog σ ε β} (hp : Leads I K p)
    (hf : ∀ a, Leads K J (f a)) (hK : ∀ s, K s → J s) : Leads I J (p >>= f) := by
  intro s hs
  have hmid := hp s hs
  rw [run_bind]
  cases hrun : p.run s with
  | mk out t =>
      rw [hrun] at hmid
      cases out with
      | ok a => exact hf a t hmid
      | error e => exact hK t hmid

/-- Sequencing that keeps an invariant. -/
theorem Leads.bind {p : Prog σ ε α} {f : α → Prog σ ε β} (hp : Leads I I p)
    (hf : ∀ a, Leads I I (f a)) : Leads I I (p >>= f) := Leads.bindVia hp hf fun _ h => h

/-- Sequencing behind a reading, whose value the continuation may use. -/
theorem Leads.readBind {f : σ → α} {p : α → Prog σ ε β} (h : ∀ s, I s → J ((p (f s)).run s).2) :
    Leads I J (Prog.read f >>= p) := by
  intro s hs
  rw [run_bind_ok (run_read f s)]
  exact h s hs

end leads

/-! ### Running on a private copy of a component -/

section copies
variable {κ : Type} (get : σ → κ) (set : κ → σ → σ)

/-- Run `p` with the component `get`/`set` replaced by the private value `c`: the shared
component is left as it is, and all other parts of the state are shared. -/
def withCopy : κ → Prog σ ε α → Prog σ ε α
  | _, .pure a => .pure a
  | _, .throw e => .throw e
  | c, .act upd next =>
      .act (fun s => set (get s) (upd (set c s)))
        (fun s => withCopy (get (upd (set c s))) (next (set c s)))

theorem run_withCopy (hset : ∀ c s, get (set c s) = c) (hself : ∀ s, set (get s) s = s)
    (hcover : ∀ c c' s, set c (set c' s) = set c s) (p : Prog σ ε α) :
    ∀ (c : κ) (s : σ), (withCopy get set c p).run s =
      ((p.run (set c s)).1, set (get s) (p.run (set c s)).2) := by
  induction p with
  | pure a => intro c s; simp [withCopy, hcover, hself]
  | throw e => intro c s; simp [withCopy, hcover, hself]
  | act upd next ih =>
      intro c s
      simp only [withCopy, run_act]
      rw [ih, hcover, hself, hset]

end copies

/-! ### Rely–guarantee triples -/

/-- `p` started in `s` keeps every step in `G` and ends in `Q`, while the environment takes
steps in `R`. -/
def Holds (R G : σ → σ → Prop) (Q : Except ε α → σ → Prop) : Prog σ ε α → σ → Prop
  | .pure a, s => ∀ s', R s s' → Q (.ok a) s'
  | .throw e, s => ∀ s', R s s' → Q (.error e) s'
  | .act upd next, s => ∀ s', R s s' → G s' (upd s') ∧ Holds R G Q (next s') (upd s')

section triples
variable {R G : σ → σ → Prop}

theorem Holds.mono {Q Q' : Except ε α → σ → Prop} (hQ : ∀ r s, Q r s → Q' r s)
    {p : Prog σ ε α} {s : σ} (h : Holds R G Q p s) : Holds R G Q' p s := by
  induction p generalizing s with
  | pure a => exact fun t ht => hQ _ _ (h t ht)
  | throw e => exact fun t ht => hQ _ _ (h t ht)
  | act upd next ih => exact fun t ht => ⟨(h t ht).1, ih t (h t ht).2⟩

theorem Holds.attempt {Q : Except ε (Except ε α) → σ → Prop} {p : Prog σ ε α} {s : σ}
    (h : Holds R G (fun r t => Q (.ok r) t) p s) : Holds R G Q p.attempt s := by
  induction p generalizing s with
  | pure a => exact fun t ht => h t ht
  | throw e => exact fun t ht => h t ht
  | act upd next ih => exact fun t ht => ⟨(h t ht).1, ih t (h t ht).2⟩

theorem Holds.ofExcept {Q : Except ε α → σ → Prop} {r : Except ε α} {s : σ}
    (h : ∀ t, R s t → Q r t) : Holds R G Q (Prog.ofExcept r) s := by
  cases r with
  | ok a => exact h
  | error e => exact h

theorem Holds.atomic {Q : Except ε α → σ → Prop} {f : σ → Except ε α × σ} {s : σ}
    (h : ∀ t, R s t → G t (f t).2 ∧ ∀ t', R (f t).2 t' → Q (f t).1 t') :
    Holds R G Q (Prog.atomic f) s :=
  fun t ht => ⟨(h t ht).1, Holds.ofExcept (h t ht).2⟩

theorem Holds.read {Q : Except ε α → σ → Prop} {f : σ → α} {s : σ}
    (h : ∀ t, R s t → G t t ∧ ∀ t', R t t' → Q (.ok (f t)) t') :
    Holds R G Q (Prog.read f) s :=
  fun t ht => h t ht

theorem Holds.modify {Q : Except ε Unit → σ → Prop} {f : σ → σ} {s : σ}
    (h : ∀ t, R s t → G t (f t) ∧ ∀ t', R (f t) t' → Q (.ok ()) t') :
    Holds R G Q (Prog.modify f) s :=
  fun t ht => h t ht

variable [IsPreorder σ R]

/-- A triple is stable under the environment. -/
theorem Holds.stable {Q : Except ε α → σ → Prop} {p : Prog σ ε α} {s s' : σ}
    (h : Holds R G Q p s) (hs : R s s') : Holds R G Q p s' := by
  cases p with
  | pure a => exact fun t ht => h t (Trans.trans hs ht)
  | throw e => exact fun t ht => h t (Trans.trans hs ht)
  | act upd next => exact fun t ht => h t (Trans.trans hs ht)

/-- Sequencing: the first part ends, on a value, in a state where the rest holds. -/
theorem Holds.bind {Q : Except ε β → σ → Prop}
    {p : Prog σ ε α} {f : α → Prog σ ε β} {s : σ}
    (h : Holds R G (fun r t => match r with
      | .ok a => Holds R G Q (f a) t
      | .error e => Q (.error e) t) p s) :
    Holds R G Q (p >>= f) s := by
  show Holds R G Q (p.bind f) s
  induction p generalizing s with
  | pure a => exact h s (refl s)
  | throw e => exact fun t ht => h t ht
  | act upd next ih => exact fun t ht => ⟨(h t ht).1, ih t (h t ht).2⟩

/-- A triple that holds against every environment step of a preorder holds of the program
run alone. -/
theorem Holds.run {Q : Except ε α → σ → Prop} {p : Prog σ ε α} {s : σ}
    (h : Holds R G Q p s) : Q (p.run s).1 (p.run s).2 := by
  induction p generalizing s with
  | pure a => exact h s (refl s)
  | throw e => exact h s (refl s)
  | act upd next ih => exact ih s (h s (refl s)).2

end triples

/-! ### Triples under any environment -/

/-- Every state is allowed to follow every other one. -/
def anyStep : σ → σ → Prop := fun _ _ => True

instance : IsPreorder σ anyStep where
  refl _ := trivial
  trans _ _ _ _ _ := trivial

/-- Whatever the environment does, every step of `p` is in `G`. -/
abbrev Steps (G : σ → σ → Prop) (p : Prog σ ε α) : Prop :=
  ∀ s, Holds anyStep G (fun _ _ => True) p s

/-- Whatever the environment does, `p` ends in an outcome that satisfies `Q`. -/
abbrev Ends (Q : Except ε α → Prop) (p : Prog σ ε α) : Prop :=
  ∀ s, Holds anyStep anyStep (fun r _ => Q r) p s

section anyEnvironment
variable {R G : σ → σ → Prop}

/-- A triple that asks for nothing. -/
theorem Holds.trivial (p : Prog σ ε α) : ∀ s, Holds R anyStep (fun _ _ => True) p s := by
  induction p with
  | pure a => exact fun _ _ _ => True.intro
  | throw e => exact fun _ _ _ => True.intro
  | act upd next ih => exact fun _ s' _ => ⟨True.intro, ih s' (upd s')⟩

/-- A loop returns a value for each of its rounds. -/
theorem Ends.range (f : ℕ → Prog σ ε α) :
    ∀ n j, Ends (fun r => ∀ as, r = .ok as → as.length = n) (Prog.range f j n)
  | 0, j, s => by
      intro t _ as has
      obtain rfl := Except.ok.inj has
      rfl
  | n + 1, j, s => by
      apply Holds.bind
      refine Holds.mono ?_ (Holds.trivial (f j) s)
      intro r t _
      cases r with
      | error e =>
          intro as has
          cases has
      | ok a =>
          apply Holds.bind
          refine Holds.mono ?_ (Ends.range f n (j + 1) t)
          intro r u hlen
          cases r with
          | error e =>
              intro as has
              cases has
          | ok as =>
              intro v _ as' has'
              obtain rfl := Except.ok.inj has'
              rw [List.length_cons, hlen as rfl]

/-- The steps of a triple, whatever it says about the outcome. -/
theorem Holds.and {R' G' : σ → σ → Prop} {Q Q' : Except ε α → σ → Prop} {p : Prog σ ε α} {s : σ}
    (h : Holds R G Q p s) (h' : Holds R' G' Q' p s) :
    Holds (fun s t => R s t ∧ R' s t) (fun s t => G s t ∧ G' s t) (fun r s => Q r s ∧ Q' r s) p s := by
  induction p generalizing s with
  | pure a => exact fun t ht => ⟨h t ht.1, h' t ht.2⟩
  | throw e => exact fun t ht => ⟨h t ht.1, h' t ht.2⟩
  | act upd next ih =>
      exact fun t ht => ⟨⟨(h t ht.1).1, (h' t ht.2).1⟩, ih t (h t ht.1).2 (h' t ht.2).2⟩

/-- A stronger rely and a weaker guarantee. -/
theorem Holds.weaken {R' G' : σ → σ → Prop} {Q : Except ε α → σ → Prop} {p : Prog σ ε α} {s : σ}
    (hR : ∀ s t, R' s t → R s t) (hG : ∀ s t, G s t → G' s t) (h : Holds R G Q p s) :
    Holds R' G' Q p s := by
  induction p generalizing s with
  | pure a => exact fun t ht => h t (hR _ _ ht)
  | throw e => exact fun t ht => h t (hR _ _ ht)
  | act upd next ih =>
      exact fun t ht => ⟨hG _ _ (h t (hR _ _ ht)).1, ih t (h t (hR _ _ ht)).2⟩

/-- Sequencing, where the rest holds from every state. -/
theorem Holds.seq [IsPreorder σ R] {Q : Except ε β → σ → Prop} {p : Prog σ ε α}
    {f : α → Prog σ ε β} (hp : ∀ s, Holds R G (fun _ _ => True) p s)
    (hf : ∀ a s, Holds R G Q (f a) s) (he : ∀ e s, Q (.error e) s) (s : σ) :
    Holds R G Q (p >>= f) s := by
  apply Holds.bind
  refine Holds.mono ?_ (hp s)
  intro r t _
  cases r with
  | ok a => exact hf a t
  | error e => exact he e t

/-- What a program whose steps are in a preorder leaves for the rest: a state that follows the
first one. -/
theorem Steps.holds [IsPreorder σ G] {p : Prog σ ε α} (hp : p.Steps G) (s : σ) :
    Holds G G (fun _ t => G s t) p s := by
  have aux : ∀ s₁, G s s₁ → Holds anyStep G (fun _ _ => True) p s₁ →
      Holds G G (fun _ t => G s t) p s₁ := by
    clear hp
    induction p with
    | pure a => exact fun s₁ hs _ t ht => trans_of G hs ht
    | throw e => exact fun s₁ hs _ t ht => trans_of G hs ht
    | act upd next ih =>
        intro s₁ hs h t ht
        obtain ⟨hstep, hnext⟩ := h t True.intro
        exact ⟨hstep, ih t _ (trans_of G (trans_of G hs ht) hstep) hnext⟩
  exact aux s (refl s) (hp s)

/-- Sequencing behind a program of which only the steps are known. -/
theorem Holds.after [IsPreorder σ G] {Q : Except ε β → σ → Prop} {p : Prog σ ε α}
    {f : α → Prog σ ε β} {s : σ} (hp : p.Steps G) (hf : ∀ a t, G s t → Holds G G Q (f a) t)
    (he : ∀ e t, G s t → Q (.error e) t) : Holds G G Q (p >>= f) s := by
  apply Holds.bind
  refine Holds.mono ?_ (hp.holds s)
  intro r t ht
  cases r with
  | ok a => exact hf a t ht
  | error e => exact he e t ht

/-- `p` throws in no run, whatever the environment does. -/
def Total : Prog σ ε α → Prop
  | .pure _ => True
  | .throw _ => False
  | .act _ next => ∀ s, Total (next s)

theorem Total.bind {p : Prog σ ε α} {f : α → Prog σ ε β} (hp : p.Total) (hf : ∀ a, (f a).Total) :
    (p >>= f).Total := by
  show (p.bind f).Total
  induction p with
  | pure a => exact hf a
  | throw e => exact hp.elim
  | act upd next ih => exact fun s => ih s (hp s)

theorem Total.attempt (p : Prog σ ε α) : p.attempt.Total := by
  induction p with
  | pure a => trivial
  | throw e => trivial
  | act upd next ih => exact fun s => ih s

theorem Total.atomic {f : σ → Except ε α × σ} (h : ∀ s, ∃ a, (f s).1 = .ok a) :
    (Prog.atomic f).Total := by
  intro s
  obtain ⟨a, ha⟩ := h s
  show (ofExcept (f s).1).Total
  rw [ha]
  trivial

theorem Total.modify (f : σ → σ) : (Prog.modify f : Prog σ ε Unit).Total := fun _ => True.intro

/-- Sequencing behind a program that does not throw and of which else only the steps are
known. -/
theorem Holds.afterTotal [IsPreorder σ G] {Q : Except ε β → σ → Prop} {p : Prog σ ε α}
    {f : α → Prog σ ε β} {s : σ} (hp : p.Steps G) (ht : p.Total)
    (hf : ∀ a t, G s t → Holds G G Q (f a) t) : Holds G G Q (p >>= f) s := by
  have aux : ∀ s₁, G s s₁ → Holds anyStep G (fun _ _ => True) p s₁ →
      Holds G G Q (p.bind f) s₁ := by
    clear hp
    induction p with
    | pure a => exact fun s₁ hs _ => hf a s₁ hs
    | throw e => exact ht.elim
    | act upd next ih =>
        intro s₁ hs h t hst
        obtain ⟨hstep, hnext⟩ := h t True.intro
        exact ⟨hstep, ih t (ht t) _ (trans_of G (trans_of G hs hst) hstep) hnext⟩
  exact aux s (refl s) (hp s)

/-- A loop whose rounds all return a value with `P`. -/
theorem Holds.range [IsPreorder σ G] {P : α → Prop} {f : ℕ → Prog σ ε α} {s : σ}
    (h : ∀ j t, G s t → Holds G G (fun r u => G t u ∧ ∃ a, r = .ok a ∧ P a) (f j) t) :
    ∀ n j t, G s t → Holds G G
      (fun r u => G t u ∧ ∃ as, r = .ok as ∧ as.length = n ∧ ∀ a ∈ as, P a) (Prog.range f j n) t
  | 0, j, t, ht => fun u hu => ⟨hu, [], rfl, rfl, by simp⟩
  | n + 1, j, t, ht => by
      apply Holds.bind
      refine Holds.mono ?_ (h j t ht)
      rintro r u ⟨hu, a, rfl, ha⟩
      apply Holds.bind
      refine Holds.mono ?_ (Holds.range h n (j + 1) u (trans_of G ht hu))
      rintro r v ⟨hv, as, rfl, hlen, has⟩
      intro w hw
      refine ⟨trans_of G hu (trans_of G hv hw), a :: as, rfl, by simp [hlen], ?_⟩
      intro b hb
      rcases List.mem_cons.mp hb with rfl | hb
      · exact ha
      · exact has b hb

/-- A triple, and that its last state follows the first one. -/
theorem Holds.track [IsPreorder σ G] (hRG : ∀ s t, R s t → G s t) {Q : Except ε α → σ → Prop}
    {p : Prog σ ε α} {s : σ} (h : Holds R G Q p s) :
    Holds R G (fun r t => Q r t ∧ G s t) p s := by
  have aux : ∀ s₁, G s s₁ → Holds R G Q p s₁ → Holds R G (fun r t => Q r t ∧ G s t) p s₁ := by
    clear h
    induction p with
    | pure a => exact fun s₁ hs h t ht => ⟨h t ht, trans_of G hs (hRG _ _ ht)⟩
    | throw e => exact fun s₁ hs h t ht => ⟨h t ht, trans_of G hs (hRG _ _ ht)⟩
    | act upd next ih =>
        intro s₁ hs h t ht
        obtain ⟨hstep, hnext⟩ := h t ht
        exact ⟨hstep, ih t _ (trans_of G (trans_of G hs (hRG _ _ ht)) hstep) hnext⟩
  exact aux s (refl s) h

/-- A loop whose rounds return values that are good, and stay good. -/
theorem Holds.rangeStable [IsPreorder σ R] [IsPreorder σ G] (hRG : ∀ s t, R s t → G s t)
    {Good : α → σ → Prop} (hgood : ∀ a s t, G s t → Good a s → Good a t) {f : ℕ → Prog σ ε α}
    (hf : ∀ j s, Holds R G (fun r u => ∀ a, r = .ok a → Good a u) (f j) s) :
    ∀ n j s, Holds R G (fun r u => ∀ as, r = .ok as → ∀ a ∈ as, Good a u) (Prog.range f j n) s
  | 0, j, s => by
      rintro u - as has a ha
      obtain rfl := Except.ok.inj has
      cases ha
  | n + 1, j, s => by
      refine Holds.bind (Holds.mono ?_ (hf j s))
      intro r t ht
      cases r with
      | error e =>
          intro as has
          cases has
      | ok a =>
          refine Holds.bind (Holds.mono ?_ (Holds.track hRG (Holds.rangeStable hRG hgood hf n (j + 1) t)))
          rintro r u ⟨hu, htu⟩
          cases r with
          | error e =>
              intro as has
              cases has
          | ok as =>
              intro v huv bs hbs b hb
              obtain rfl := Except.ok.inj hbs
              rcases List.mem_cons.mp hb with rfl | hb
              · exact hgood b t v (trans_of G htu (hRG _ _ huv)) (ht b rfl)
              · exact hgood b u v (hRG _ _ huv) (hu as rfl b hb)

theorem Steps.mono {G' : σ → σ → Prop} (hG : ∀ s t, G s t → G' s t) {p : Prog σ ε α}
    (h : p.Steps G) : p.Steps G' := fun s => Holds.weaken (fun _ _ h => h) hG (h s)

theorem Steps.bind {p : Prog σ ε α} {f : α → Prog σ ε β} (hp : p.Steps G)
    (hf : ∀ a, (f a).Steps G) : (p >>= f).Steps G :=
  fun s => Holds.seq hp hf (fun _ _ => True.intro) s

theorem Steps.pure (a : α) : (Prog.pure a : Prog σ ε α).Steps G := fun _ _ _ => True.intro

theorem Steps.throw (e : ε) : (Prog.throw e : Prog σ ε α).Steps G := fun _ _ _ => True.intro

theorem Steps.atomic {f : σ → Except ε α × σ} (h : ∀ s, G s (f s).2) : (Prog.atomic f).Steps G :=
  fun _ => Holds.atomic fun t _ => ⟨h t, fun _ _ => True.intro⟩

theorem Steps.modify {f : σ → σ} (h : ∀ s, G s (f s)) :
    (Prog.modify f : Prog σ ε Unit).Steps G :=
  fun _ => Holds.modify fun t _ => ⟨h t, fun _ _ => True.intro⟩

theorem Steps.read {f : σ → α} (h : ∀ s, G s s) : (Prog.read f : Prog σ ε α).Steps G :=
  fun _ => Holds.read fun t _ => ⟨h t, fun _ _ => True.intro⟩

theorem Steps.ofExcept (r : Except ε α) : (Prog.ofExcept r : Prog σ ε α).Steps G :=
  fun _ => Holds.ofExcept fun _ _ => True.intro

theorem Steps.attempt {p : Prog σ ε α} (h : p.Steps G) : p.attempt.Steps G :=
  fun s => Holds.attempt (h s)

theorem Steps.range {f : ℕ → Prog σ ε α} (h : ∀ j, (f j).Steps G) :
    ∀ n j, (Prog.range f j n).Steps G
  | 0, _ => Steps.pure []
  | n + 1, j => Steps.bind (h j) fun a => Steps.bind (Steps.range h n (j + 1)) fun as =>
      Steps.pure (a :: as)

/-- The steps of a program run alone lead from its first state to its last one. -/
theorem Steps.run [IsPreorder σ G] {p : Prog σ ε α} (h : p.Steps G) (s : σ) : G s (p.run s).2 := by
  have aux : ∀ s, Holds anyStep G (fun _ _ => True) p s → G s (p.run s).2 := by
    clear h
    induction p with
    | pure a => exact fun s _ => refl s
    | throw e => exact fun s _ => refl s
    | act upd next ih =>
        intro s h
        obtain ⟨hstep, hnext⟩ := h s True.intro
        exact trans_of G hstep (ih s _ hnext)
  exact aux s (h s)

/-- Steps on a private copy of a component, if the relation does not look at it. -/
theorem Steps.withCopy {κ : Type} {get : σ → κ} {set : κ → σ → σ}
    (h : ∀ c s t, G (set c s) t → G s (set (get s) t)) {p : Prog σ ε α} (hp : p.Steps G) :
    ∀ c, (Prog.withCopy get set c p).Steps G := by
  have aux : ∀ c s₀, Holds anyStep G (fun _ _ => True) p s₀ →
      (Prog.withCopy get set c p).Steps G := by
    clear hp
    induction p with
    | pure a => exact fun _ _ _ _ _ _ => True.intro
    | throw e => exact fun _ _ _ _ _ _ => True.intro
    | act upd next ih =>
        intro c s₀ hp s t _
        obtain ⟨hstep, hnext⟩ := hp (set c t) True.intro
        exact ⟨h c t _ hstep, ih _ _ _ hnext _⟩
  exact fun c s => aux c s (hp s) s

end anyEnvironment

/-! ### Counting steps -/

section counting
variable (I : σ → Prop) (c : σ → ℕ)

/-- As long as the environment keeps the invariant `I`, `p` keeps it too and returns a value,
and its steps raise `c` by `n` in total. -/
def Counts : Prog σ ε α → ℕ → Prop
  | .pure _, n => n = 0
  | .throw _, _ => False
  | .act upd next, n => ∀ s, I s → I (upd s) ∧
      ∃ k m, k + m = n ∧ c (upd s) = c s + k ∧ Counts (next s) m

/-- As long as the environment keeps the invariant `I`, `p` keeps it too, and its steps raise `c`
by at most `n` in total. -/
def Within : Prog σ ε α → ℕ → Prop
  | .act upd next, n => ∀ s, I s → I (upd s) ∧
      ∃ k m, k + m ≤ n ∧ c (upd s) ≤ c s + k ∧ Within (next s) m
  | _, _ => True

variable {I c}

theorem Counts.bind {p : Prog σ ε α} {f : α → Prog σ ε β} {m n : ℕ} (hp : Counts I c p m)
    (hf : ∀ a, Counts I c (f a) n) : Counts I c (p >>= f) (m + n) := by
  show Counts I c (p.bind f) (m + n)
  induction p generalizing m with
  | pure a =>
      obtain rfl : m = 0 := hp
      rw [Nat.zero_add]
      exact hf a
  | throw e => exact hp.elim
  | act upd next ih =>
      intro s hs
      obtain ⟨hinv, k, l, hkl, hk, hl⟩ := hp s hs
      exact ⟨hinv, k, l + n, by omega, hk, ih s hl⟩

theorem Counts.modify {f : σ → σ} {n : ℕ} (hI : ∀ s, I s → I (f s)) (h : ∀ s, c (f s) = c s + n) :
    Counts I c (Prog.modify f : Prog σ ε Unit) n :=
  fun s hs => ⟨hI s hs, n, 0, by omega, h s, rfl⟩

theorem Counts.attempt {p : Prog σ ε α} {n : ℕ} (h : Counts I c p n) : Counts I c p.attempt n := by
  induction p generalizing n with
  | pure a => exact h
  | throw e => exact h.elim
  | act upd next ih =>
      intro s hs
      obtain ⟨hinv, k, l, hkl, hk, hl⟩ := h s hs
      exact ⟨hinv, k, l, hkl, hk, ih s hl⟩

/-- A program that returns a value and whose steps keep `c`. -/
theorem Counts.zero {R G : σ → σ → Prop} {Q : Except ε α → σ → Prop}
    (hR : ∀ s t, I s → I t → R s t) (hG : ∀ s t, G s t → c t = c s ∧ (I s → I t))
    (hQ : ∀ e t, I t → ¬ Q (.error e) t) {p : Prog σ ε α} :
    ∀ {s : σ}, I s → Holds R G Q p s → Counts I c p 0 := by
  induction p with
  | pure a => exact fun _ _ => rfl
  | throw e => exact fun {s} hs h => hQ e s hs (h s (hR s s hs hs))
  | act upd next ih =>
      intro s hs h t ht
      obtain ⟨hstep, hnext⟩ := h t (hR s t hs ht)
      obtain ⟨hc, hI⟩ := hG t (upd t) hstep
      exact ⟨hI ht, 0, 0, rfl, by omega, ih t (hI ht) hnext⟩

/-- A program whose steps keep `c`, with its exceptions caught. -/
theorem Counts.caught {p : Prog σ ε α} (h : p.Steps fun s t => I s → I t ∧ c t = c s) :
    Counts I c p.attempt 0 := by
  have aux : ∀ s₀, Holds anyStep (fun s t => I s → I t ∧ c t = c s) (fun _ _ => True) p s₀ →
      Counts I c p.attempt 0 := by
    clear h
    induction p with
    | pure a => exact fun _ _ => rfl
    | throw e => exact fun _ _ => rfl
    | act upd next ih =>
        intro s₀ h s hs
        obtain ⟨hstep, hnext⟩ := h s True.intro
        obtain ⟨hinv, hc⟩ := hstep hs
        exact ⟨hinv, 0, 0, rfl, by omega, ih s _ hnext⟩
  cases p with
  | pure a => exact rfl
  | throw e => exact rfl
  | act upd next => exact fun s => aux s (h s) s

theorem Counts.range {f : ℕ → Prog σ ε α} {k : ℕ} (h : ∀ j, Counts I c (f j) k) :
    ∀ n j, Counts I c (Prog.range f j n) (n * k)
  | 0, _ => by
      rw [Nat.zero_mul]
      exact rfl
  | n + 1, j => by
      have hpure : ∀ as : List α, Counts I c (Prog.pure as : Prog σ ε (List α)) 0 := fun _ => rfl
      have hcost : (n + 1) * k = k + (n * k + 0) := by ring
      rw [hcost]
      exact Counts.bind (h j) fun a =>
        Counts.bind (Counts.range h n (j + 1)) fun as => hpure (a :: as)

theorem Within.mono {p : Prog σ ε α} {m n : ℕ} (h : Within I c p m) (hmn : m ≤ n) :
    Within I c p n := by
  cases p with
  | pure a => trivial
  | throw e => trivial
  | act upd next =>
      intro s hs
      obtain ⟨hinv, k, l, hkl, hk, hl⟩ := h s hs
      exact ⟨hinv, k, l, by omega, hk, hl⟩

theorem Within.bind {p : Prog σ ε α} {f : α → Prog σ ε β} {m n : ℕ} (hp : Within I c p m)
    (hf : ∀ a, Within I c (f a) n) : Within I c (p >>= f) (m + n) := by
  show Within I c (p.bind f) (m + n)
  induction p generalizing m with
  | pure a => exact (hf a).mono (by omega)
  | throw e => trivial
  | act upd next ih =>
      intro s hs
      obtain ⟨hinv, k, l, hkl, hk, hl⟩ := hp s hs
      exact ⟨hinv, k, l + n, by omega, hk, ih s hl⟩

/-- Behind a program that never returns a value nothing is added. -/
theorem Within.stop {R G : σ → σ → Prop} {Q : Except ε α → σ → Prop}
    (hR : ∀ s t, I s → I t → R s t) (hQ : ∀ a t, I t → ¬ Q (.ok a) t) {p : Prog σ ε α}
    {f : α → Prog σ ε β} :
    ∀ {s : σ} {n : ℕ}, I s → Holds R G Q p s → Within I c p n → Within I c (p >>= f) n := by
  intro s n hs h hp
  show Within I c (p.bind f) n
  induction p generalizing s n with
  | pure a => exact absurd (h s (hR s s hs hs)) (hQ a s hs)
  | throw e => trivial
  | act upd next ih =>
      intro t ht
      obtain ⟨hinv, k, m, hkm, hk, hm⟩ := hp t ht
      exact ⟨hinv, k, m, hkm, hk, ih t hinv (h t (hR s t hs ht)).2 hm⟩

theorem Within.pure (a : α) (n : ℕ) : Within I c (Prog.pure a : Prog σ ε α) n := trivial

/-- Sequencing behind a part that costs nothing. -/
theorem Within.after {p : Prog σ ε α} {f : α → Prog σ ε β} {n : ℕ} (hp : Within I c p 0)
    (hf : ∀ a, Within I c (f a) n) : Within I c (p >>= f) n :=
  (Within.bind hp hf).mono (Nat.zero_add n).le

/-- Sequencing before a part that costs nothing. -/
theorem Within.before {p : Prog σ ε α} {f : α → Prog σ ε β} {n : ℕ} (hp : Within I c p n)
    (hf : ∀ a, Within I c (f a) 0) : Within I c (p >>= f) n := Within.bind hp hf

theorem Within.atomic {f : σ → Except ε α × σ} {n : ℕ}
    (h : ∀ s, I s → I (f s).2 ∧ c (f s).2 ≤ c s + n) : Within I c (Prog.atomic f) n := by
  intro s hs
  obtain ⟨hinv, hc⟩ := h s hs
  refine ⟨hinv, n, 0, le_refl n, hc, ?_⟩
  show Within I c (Prog.ofExcept (f s).1) 0
  cases (f s).1 with
  | ok a => trivial
  | error e => trivial

/-- Sequencing behind one step, by what that step returns. -/
theorem Within.atomicBind {f : σ → Except ε α × σ} {g : α → Prog σ ε β} {n : ℕ}
    (h : ∀ s, I s → I (f s).2 ∧ c (f s).2 ≤ c s ∧ ∀ a, (f s).1 = .ok a → Within I c (g a) n) :
    Within I c (Prog.atomic f >>= g) n := by
  intro s hs
  obtain ⟨hinv, hc, hg⟩ := h s hs
  refine ⟨hinv, 0, n, by omega, hc, ?_⟩
  show Within I c ((Prog.ofExcept (f s).1).bind g) n
  cases hr : (f s).1 with
  | ok a => exact hg a hr
  | error e => trivial

theorem Within.readBind {f : σ → α} {g : α → Prog σ ε β} {n : ℕ}
    (h : ∀ s, I s → Within I c (g (f s)) n) : Within I c (Prog.read f >>= g) n :=
  fun s hs => ⟨hs, 0, n, by omega, le_refl _, h s hs⟩

theorem Within.attempt {p : Prog σ ε α} {n : ℕ} (h : Within I c p n) : Within I c p.attempt n := by
  induction p generalizing n with
  | pure a => trivial
  | throw e => trivial
  | act upd next ih =>
      intro s hs
      obtain ⟨hinv, k, l, hkl, hk, hl⟩ := h s hs
      exact ⟨hinv, k, l, hkl, hk, ih s hl⟩

/-- A program whose steps do not raise `c`. -/
theorem Within.zero {p : Prog σ ε α} (h : p.Steps fun s t => I s → I t ∧ c t ≤ c s) (n : ℕ) :
    Within I c p n := by
  have aux : ∀ s₀, Holds anyStep (fun s t => I s → I t ∧ c t ≤ c s) (fun _ _ => True) p s₀ →
      Within I c p n := by
    clear h
    induction p with
    | pure a => exact fun _ _ => True.intro
    | throw e => exact fun _ _ => True.intro
    | act upd next ih =>
        intro s₀ h s hs
        obtain ⟨hstep, hnext⟩ := h s True.intro
        obtain ⟨hinv, hc⟩ := hstep hs
        exact ⟨hinv, 0, n, by omega, hc, ih s _ hnext⟩
  cases p with
  | pure a => trivial
  | throw e => trivial
  | act upd next => exact fun s => aux s (h s) s

theorem Within.range {f : ℕ → Prog σ ε α} {b : ℕ → ℕ} :
    ∀ n j, (∀ l, j ≤ l → l < j + n → Within I c (f l) (b l)) →
      Within I c (Prog.range f j n) (∑ l ∈ Finset.range n, b (j + l))
  | 0, _, _ => trivial
  | n + 1, j, h => by
      have hshift : ∑ l ∈ Finset.range (n + 1), b (j + l) =
          b j + ∑ l ∈ Finset.range n, b (j + 1 + l) := by
        rw [Finset.sum_range_succ', Nat.add_zero, Nat.add_comm]
        exact congrArg (b j + ·) (Finset.sum_congr rfl fun l _ => by rw [Nat.add_right_comm]; rfl)
      rw [hshift]
      refine Within.bind (h j (le_refl j) (by omega)) fun a => ?_
      refine Within.before (Within.range n (j + 1) fun l hl hln => h l (by omega) (by omega)) fun as => ?_
      exact Within.pure (a :: as) 0

/-- On a private copy of a component the program keeps an invariant `J` of the copy. -/
theorem Within.withCopy {κ : Type} {get : σ → κ} {set : κ → σ → σ} {J : σ → Prop}
    (hself : ∀ s, set (get s) s = s) (hin : ∀ x s t, J (set x s) → I t → J (set x t))
    (hout : ∀ s t, I s → J t → I (set (get s) t)) (hc : ∀ x s, c (set x s) = c s)
    {p : Prog σ ε α} {n : ℕ} (h : Within J c p n) :
    ∀ x s, J (set x s) → Within I c (Prog.withCopy get set x p) n := by
  induction p generalizing n with
  | pure a => exact fun _ _ _ => trivial
  | throw e => exact fun _ _ _ => trivial
  | act upd next ih =>
      intro x s hx t ht
      have hxt : J (set x t) := hin x s t hx ht
      obtain ⟨hinv, k, m, hkm, hk, hm⟩ := h (set x t) hxt
      refine ⟨hout t _ ht hinv, k, m, hkm, ?_, ?_⟩
      · rw [hc] at hk ⊢
        exact hk
      · refine ih (set x t) hm _ (upd (set x t)) ?_
        rw [hself]
        exact hinv

end counting

/-! ### Interleavings -/

/-- The outcome of a program that has no step left. -/
def outcome? : Prog σ ε α → Option (Except ε α)
  | .pure a => some (.ok a)
  | .throw e => some (.error e)
  | .act _ _ => none

/-- One atomic step; a finished program stays as it is. -/
def step : Prog σ ε α → σ → Prog σ ε α × σ
  | .act upd next, s => (next s, upd s)
  | p, s => (p, s)

theorem Counts.step {I : σ → Prop} {c : σ → ℕ} {p : Prog σ ε α} {n : ℕ} (h : Counts I c p n)
    {s : σ} (hs : I s) :
    I (p.step s).2 ∧ ∃ m, Counts I c (p.step s).1 m ∧ c (p.step s).2 + m = c s + n := by
  cases p with
  | pure a => exact ⟨hs, n, h, rfl⟩
  | throw e => exact h.elim
  | act upd next =>
      obtain ⟨hinv, k, m, hkm, hk, hm⟩ := h s hs
      refine ⟨hinv, m, hm, ?_⟩
      show c (upd s) + m = c s + n
      omega

theorem Within.step {I : σ → Prop} {c : σ → ℕ} {p : Prog σ ε α} {n : ℕ} (h : Within I c p n)
    {s : σ} (hs : I s) :
    I (p.step s).2 ∧ ∃ m, Within I c (p.step s).1 m ∧ c (p.step s).2 + m ≤ c s + n := by
  cases p with
  | pure a => exact ⟨hs, n, trivial, le_refl _⟩
  | throw e => exact ⟨hs, n, trivial, le_refl _⟩
  | act upd next =>
      obtain ⟨hinv, k, m, hkm, hk, hm⟩ := h s hs
      refine ⟨hinv, m, hm, ?_⟩
      show c (upd s) + m ≤ c s + n
      omega

theorem Within.run {I : σ → Prop} {c : σ → ℕ} {p : Prog σ ε α} {n : ℕ} (h : Within I c p n)
    {s : σ} (hs : I s) : I (p.run s).2 ∧ c (p.run s).2 ≤ c s + n := by
  induction p generalizing n s with
  | pure a => exact ⟨hs, Nat.le_add_right _ _⟩
  | throw e => exact ⟨hs, Nat.le_add_right _ _⟩
  | act upd next ih =>
      obtain ⟨hinv, k, m, hkm, hk, hm⟩ := h s hs
      obtain ⟨hend, hnext⟩ := ih s hm hinv
      rw [run_act]
      exact ⟨hend, by omega⟩

theorem Counts.run {I : σ → Prop} {c : σ → ℕ} {p : Prog σ ε α} {n : ℕ} (h : Counts I c p n)
    {s : σ} (hs : I s) : c (p.run s).2 = c s + n := by
  induction p generalizing n s with
  | pure a =>
      obtain rfl : n = 0 := h
      rfl
  | throw e => exact h.elim
  | act upd next ih =>
      obtain ⟨hinv, k, m, hkm, hk, hm⟩ := h s hs
      have hnext := ih s hm hinv
      rw [run_act]
      omega

theorem step_of_outcome {p : Prog σ ε α} (h : p.outcome?.isSome) (s : σ) : p.step s = (p, s) := by
  cases p with
  | pure a => rfl
  | throw e => rfl
  | act upd next => cases h

end Prog

variable {ι : Type} [DecidableEq ι]

/-- Execute the programs `ps` over the shared state under a schedule. -/
def interleave : List ι → (ι → Prog σ ε α) → σ → (ι → Prog σ ε α) × σ
  | [], ps, s => (ps, s)
  | i :: is, ps, s =>
      interleave is (Function.update ps i ((ps i).step s).1) ((ps i).step s).2

/-- **Parallel composition**: programs whose guarantees lie in each other's relies keep
their triples under every schedule. -/
theorem interleave_holds {R G : ι → σ → σ → Prop} {Q : ι → Except ε α → σ → Prop}
    [∀ i, IsPreorder σ (R i)]
    (hG : ∀ i j, i ≠ j → ∀ s s', G i s s' → R j s s') :
    ∀ (sched : List ι) (ps : ι → Prog σ ε α) (s : σ),
      (∀ i, (ps i).Holds (R i) (G i) (Q i) s) →
      ∀ i, ((interleave sched ps s).1 i).Holds (R i) (G i) (Q i) (interleave sched ps s).2
  | [], _, _, h, i => h i
  | j :: sched, ps, s, h, i => by
      apply interleave_holds hG sched
      intro k
      have hj := h j
      cases hp : ps j with
      | pure a =>
          rw [hp] at hj
          rcases eq_or_ne k j with rfl | hk
          · simpa [Prog.step] using hj
          · simpa [Prog.step, hk] using h k
      | throw e =>
          rw [hp] at hj
          rcases eq_or_ne k j with rfl | hk
          · simpa [Prog.step] using hj
          · simpa [Prog.step, hk] using h k
      | act upd next =>
          rw [hp] at hj
          obtain ⟨hg, hn⟩ := hj s (refl s)
          rcases eq_or_ne k j with rfl | hk
          · simpa [Prog.step] using hn
          · simpa [Prog.step, hk] using (h k).stable (hG j k hk.symm _ _ hg)

/-- What a finished program of an interleaving satisfies. -/
theorem interleave_outcome {R G : ι → σ → σ → Prop} {Q : ι → Except ε α → σ → Prop}
    [∀ i, IsPreorder σ (R i)]
    (hG : ∀ i j, i ≠ j → ∀ s s', G i s s' → R j s s')
    {sched : List ι} {ps : ι → Prog σ ε α} {s : σ}
    (h : ∀ i, (ps i).Holds (R i) (G i) (Q i) s) {i : ι} {r : Except ε α}
    (hi : ((interleave sched ps s).1 i).outcome? = some r) :
    Q i r (interleave sched ps s).2 := by
  have hq := interleave_holds hG sched ps s h i
  cases hp : (interleave sched ps s).1 i with
  | pure a =>
      rw [hp] at hi hq
      cases hi
      exact hq _ (refl _)
  | throw e =>
      rw [hp] at hi hq
      cases hi
      exact hq _ (refl _)
  | act upd next => rw [hp] at hi; cases hi

/-- **Budgets**: what every step of a program takes from its budget is what it adds to `c`, up
to a relation `r`; then the programs of an interleaving share their budgets. -/
theorem interleave_budget {I : σ → Prop} {c : σ → ℕ} {B : Prog σ ε α → ℕ → Prop} {r : ℕ → ℕ → Prop}
    [IsPreorder ℕ r] (hadd : ∀ a b x, r a b → r (a + x) (b + x))
    (hB : ∀ p n s, B p n → I s →
      I (p.step s).2 ∧ ∃ m, B (p.step s).1 m ∧ r (c (p.step s).2 + m) (c s + n))
    (F : Finset ι) :
    ∀ (sched : List ι) (ps : ι → Prog σ ε α) (n : ι → ℕ) (s : σ), I s →
      (∀ i ∈ F, B (ps i) (n i)) → (∀ i ∉ F, (ps i).outcome?.isSome) →
      I (interleave sched ps s).2 ∧ ∃ m : ι → ℕ, (∀ i ∈ F, B ((interleave sched ps s).1 i) (m i)) ∧
        r (c (interleave sched ps s).2 + ∑ i ∈ F, m i) (c s + ∑ i ∈ F, n i)
  | [], ps, n, s, hs, h, _ => ⟨hs, n, h, refl _⟩
  | j :: sched, ps, n, s, hs, h, hout => by
      by_cases hj : j ∈ F
      · obtain ⟨hinv, k, hk, hr⟩ := hB (ps j) (n j) s (h j hj) hs
        have hbudget : ∀ i ∈ F, B (Function.update ps j ((ps j).step s).1 i) (Function.update n j k i) := by
          intro i hi
          rcases eq_or_ne i j with rfl | hne
          · rw [Function.update_self, Function.update_self]
            exact hk
          · rw [Function.update_of_ne hne, Function.update_of_ne hne]
            exact h i hi
        have hrest : ∀ i ∉ F, (Function.update ps j ((ps j).step s).1 i).outcome?.isSome := by
          intro i hi
          have hne : i ≠ j := fun heq => hi (heq ▸ hj)
          rw [Function.update_of_ne hne]
          exact hout i hi
        obtain ⟨hend, m, hm, hsum⟩ := interleave_budget hadd hB F sched _ _ _ hinv hbudget hrest
        refine ⟨hend, m, hm, trans_of r hsum ?_⟩
        rw [Finset.sum_update_of_mem hj, ← Finset.add_sum_erase F n hj, Finset.sdiff_singleton_eq_erase,
          ← Nat.add_assoc, ← Nat.add_assoc]
        exact hadd _ _ _ hr
      · have hstep := Prog.step_of_outcome (hout j hj) s
        have hsame : interleave (j :: sched) ps s = interleave sched ps s := by
          rw [interleave, hstep, Function.update_eq_self]
        rw [hsame]
        exact interleave_budget hadd hB F sched ps n s hs h hout

/-- Programs that count their steps, once all of them have ended. -/
theorem interleave_counts {I : σ → Prop} {c : σ → ℕ} {F : Finset ι} {sched : List ι}
    {ps : ι → Prog σ ε α} {n : ι → ℕ} {s : σ} (hs : I s) (h : ∀ i ∈ F, (ps i).Counts I c (n i))
    (hout : ∀ i ∉ F, (ps i).outcome?.isSome)
    (hend : ∀ i ∈ F, ((interleave sched ps s).1 i).outcome?.isSome) :
    c (interleave sched ps s).2 = c s + ∑ i ∈ F, n i := by
  obtain ⟨-, m, hm, hsum⟩ := interleave_budget (r := (· = ·)) (fun a b x hab => by omega)
    (fun p n s hp hs => hp.step hs) F sched ps n s hs h hout
  have hzero : ∀ i ∈ F, m i = 0 := by
    intro i hi
    have hmi := hm i hi
    have hei := hend i hi
    cases hp : (interleave sched ps s).1 i with
    | pure a =>
        rw [hp] at hmi
        exact hmi
    | throw e =>
        rw [hp] at hmi
        exact hmi.elim
    | act upd next =>
        rw [hp] at hei
        cases hei
  rw [Finset.sum_eq_zero hzero] at hsum
  exact hsum

/-- Programs that keep within their budgets. -/
theorem interleave_within {I : σ → Prop} {c : σ → ℕ} {F : Finset ι} {ps : ι → Prog σ ε α}
    {n : ι → ℕ} {s : σ} (hs : I s) (h : ∀ i ∈ F, (ps i).Within I c (n i))
    (hout : ∀ i ∉ F, (ps i).outcome?.isSome) (sched : List ι) :
    I (interleave sched ps s).2 ∧ c (interleave sched ps s).2 ≤ c s + ∑ i ∈ F, n i := by
  obtain ⟨hinv, m, -, hsum⟩ := interleave_budget (r := (· ≤ ·))
    (fun a b x hab => by omega) (fun p n s hp hs => hp.step hs) F sched ps n s hs h hout
  exact ⟨hinv, by omega⟩

end Resumption
