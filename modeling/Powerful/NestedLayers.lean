import Mathlib

/-! # Layers of nested maps

A nested map is a `Layer`: at a path of keys it has another map, a value or nothing, and a path
leads to something only through maps.  `layOver` lays one nested map over another: a value of the
upper one replaces what the lower one has there and hides what it has below, and maps of both are
joined.

`stack_eq_value_iff` says what a stack of layers has at a path: the value of the highest layer that
has one there or on the way there, unless a higher one has a map at the path. -/

namespace NestedLayers

variable {κ α : Type*}

inductive Entry (α : Type*) where
  | map
  | value (a : α)

/-- What is at each path. -/
abbrev Shape (κ α : Type*) := List κ → Option (Entry α)

namespace Shape
variable (s : Shape κ α)

/-- There is a value at the path or on the way to it. -/
def Decides (p : List κ) : Prop := ∃ q a, q <+: p ∧ s q = some (.value a)

/-- There is a value on the way to the path. -/
def Hides (p : List κ) : Prop := ∃ q a, q <+: p ∧ q ≠ p ∧ s q = some (.value a)

theorem not_hides_nil : ¬ s.Hides [] := by
  rintro ⟨q, a, hq, hne, -⟩
  exact hne (List.prefix_nil.mp hq)

theorem hides_cons {k : κ} {p : List κ} :
    s.Hides (k :: p) ↔ (∃ a, s [] = some (.value a)) ∨ Hides (fun q => s (k :: q)) p := by
  constructor
  · rintro ⟨q, a, hq, hne, hvalue⟩
    rcases List.prefix_cons_iff.mp hq with rfl | ⟨q', rfl, hq'⟩
    · exact Or.inl ⟨a, hvalue⟩
    · exact Or.inr ⟨q', a, hq', fun heq => hne (by rw [heq]), hvalue⟩
  · rintro (⟨a, hvalue⟩ | ⟨q, a, hq, hne, hvalue⟩)
    · exact ⟨[], a, List.nil_prefix, (List.cons_ne_nil k p).symm, hvalue⟩
    · exact ⟨k :: q, a, List.cons_prefix_cons.mpr ⟨rfl, hq⟩, fun heq => hne (List.cons.inj heq).2, hvalue⟩

theorem decides_iff {p : List κ} : s.Decides p ↔ s.Hides p ∨ ∃ a, s p = some (.value a) := by
  constructor
  · rintro ⟨q, a, hq, hvalue⟩
    by_cases heq : q = p
    · exact Or.inr ⟨a, heq ▸ hvalue⟩
    · exact Or.inl ⟨q, a, hq, heq, hvalue⟩
  · rintro (⟨q, a, hq, -, hvalue⟩ | ⟨a, hvalue⟩)
    · exact ⟨q, a, hq, hvalue⟩
    · exact ⟨p, a, List.prefix_rfl, hvalue⟩

open Classical in
/-- One shape over another. -/
noncomputable def layOver (upper lower : Shape κ α) : Shape κ α := fun p =>
  if upper.Hides p then none else (upper p).or (lower p)

theorem layOver_nil (upper lower : Shape κ α) : upper.layOver lower [] = (upper []).or (lower []) :=
  if_neg upper.not_hides_nil

/-- A value has nothing below it. -/
theorem layOver_cons_of_value {upper : Shape κ α} {a : α} (h : upper [] = some (.value a))
    (lower : Shape κ α) (k : κ) (p : List κ) : upper.layOver lower (k :: p) = none :=
  if_pos (upper.hides_cons.mpr (Or.inl ⟨a, h⟩))

/-- Below a map the shapes are laid over each other key by key. -/
theorem layOver_cons_of_map {upper : Shape κ α} (h : upper [] = some .map) (lower : Shape κ α)
    (k : κ) (p : List κ) : upper.layOver lower (k :: p) =
      layOver (fun q => upper (k :: q)) (fun q => lower (k :: q)) p := by
  have hhides : upper.Hides (k :: p) ↔ Hides (fun q => upper (k :: q)) p := by
    rw [hides_cons, h]
    exact or_iff_right fun hvalue => by
      obtain ⟨a, ha⟩ := hvalue
      cases ha
  by_cases h' : upper.Hides (k :: p)
  · exact (if_pos h').trans (if_pos (hhides.mp h')).symm
  · exact (if_neg h').trans (if_neg fun hp => h' (hhides.mpr hp)).symm

end Shape

/-- A nested map. -/
@[ext]
structure Layer (κ α : Type*) where
  entry : Shape κ α
  root : entry [] = some .map
  through : ∀ p k, (entry (p ++ [k])).isSome → entry p = some .map

namespace Layer
variable (l : Layer κ α)

def Decides (p : List κ) : Prop := l.entry.Decides p

def Hides (p : List κ) : Prop := l.entry.Hides p

/-- On the way to something there are maps. -/
theorem map_of_prefix {q : List κ} : ∀ r : List κ, r ≠ [] → (l.entry (q ++ r)).isSome →
    l.entry q = some .map := by
  intro r
  induction r using List.reverseRecOn with
  | nil => exact fun hne => absurd rfl hne
  | append_singleton r k ih =>
      intro _ hsome
      rw [← List.append_assoc] at hsome
      have hr := l.through (q ++ r) k hsome
      by_cases hnil : r = []
      · rw [hnil, List.append_nil] at hr
        exact hr
      · exact ih hnil (by rw [hr]; rfl)

/-- What is hidden is not there. -/
theorem entry_of_hides {p : List κ} (h : l.Hides p) : l.entry p = none := by
  obtain ⟨q, a, ⟨r, rfl⟩, hne, hvalue⟩ := h
  by_contra hsome
  have hr : r ≠ [] := by
    rintro rfl
    exact hne (List.append_nil q).symm
  have hmap := l.map_of_prefix r hr (Option.isSome_iff_ne_none.mpr hsome)
  rw [hmap] at hvalue
  cases hvalue

/-- The upper map laid over the lower one. -/
noncomputable def layOver (upper lower : Layer κ α) : Layer κ α where
  entry := upper.entry.layOver lower.entry
  root := by
    unfold Shape.layOver
    rw [if_neg upper.entry.not_hides_nil, upper.root]
    rfl
  through p k hsome := by
    unfold Shape.layOver at hsome ⊢
    by_cases hhides : upper.entry.Hides (p ++ [k])
    · rw [if_pos hhides] at hsome
      cases hsome
    · rw [if_neg hhides] at hsome
      have hnot : ¬ upper.entry.Decides p := by
        rintro ⟨q, a, hq, hvalue⟩
        refine hhides ⟨q, a, hq.trans (List.prefix_append p [k]), ?_, hvalue⟩
        rintro rfl
        have hlength := hq.length_le
        rw [List.length_append, List.length_singleton] at hlength
        omega
      rw [if_neg fun h => hnot (upper.entry.decides_iff.mpr (Or.inl h))]
      cases hupper : upper.entry (p ++ [k]) with
      | some e =>
          rw [upper.through p k (by rw [hupper]; rfl)]
          rfl
      | none =>
          rw [hupper, Option.none_or] at hsome
          rw [lower.through p k hsome]
          cases hentry : upper.entry p with
          | none => rfl
          | some e =>
              cases e with
              | map => rfl
              | value a => exact absurd (upper.entry.decides_iff.mpr (Or.inr ⟨a, hentry⟩)) hnot

/-- The map without entries. -/
def empty : Layer κ α where
  entry p := if p.isEmpty then some .map else none
  root := rfl
  through p k hsome := by
    rw [if_neg (by simp)] at hsome
    cases hsome

/-- Layers over each other, the highest one first. -/
noncomputable def stack (ls : List (Layer κ α)) : Layer κ α := ls.foldr layOver empty

theorem entry_layOver (upper lower : Layer κ α) {p : List κ} (h : ¬ upper.Hides p) :
    (upper.layOver lower).entry p = (upper.entry p).or (lower.entry p) := if_neg h

theorem entry_layOver_of_hides (upper lower : Layer κ α) {p : List κ} (h : upper.Hides p) :
    (upper.layOver lower).entry p = none := if_pos h

theorem layOver_empty : l.layOver empty = l := by
  refine Layer.ext (funext fun p => ?_)
  by_cases hhides : l.Hides p
  · rw [entry_layOver_of_hides l empty hhides, l.entry_of_hides hhides]
  · rw [entry_layOver l empty hhides]
    cases p with
    | nil =>
        rw [l.root]
        rfl
    | cons k p => exact Option.or_none

/-- A value of the joined maps is one of the upper map, or one of the lower map that the upper one
neither decides nor covers with a map. -/
theorem layOver_eq_value_iff (upper lower : Layer κ α) {p : List κ} {a : α} :
    (upper.layOver lower).entry p = some (.value a) ↔ upper.entry p = some (.value a) ∨
      (¬ upper.Decides p ∧ upper.entry p ≠ some .map ∧ lower.entry p = some (.value a)) := by
  by_cases hhides : upper.Hides p
  · rw [entry_layOver_of_hides upper lower hhides, upper.entry_of_hides hhides]
    constructor
    · rintro ⟨⟩
    · rintro (⟨⟨⟩⟩ | ⟨hnot, -⟩)
      exact absurd (upper.entry.decides_iff.mpr (Or.inl hhides)) hnot
  · rw [entry_layOver upper lower hhides]
    have hdecides : upper.Decides p ↔ ∃ a, upper.entry p = some (.value a) := by
      exact upper.entry.decides_iff.trans (or_iff_right hhides)
    rw [hdecides]
    cases upper.entry p with
    | none => simp
    | some e => cases e <;> simp

/-! ### Stacks -/

/-- `l` is the highest layer of the stack that decides at the path; `above` are the higher ones. -/
def DecidesIn (ls above : List (Layer κ α)) (l : Layer κ α) (p : List κ) : Prop :=
  (∃ below, ls = above ++ l :: below) ∧ l.Decides p ∧ ∀ h ∈ above, ¬ h.Decides p

/-- **Precedence**: a stack has a value at a path exactly if the highest layer that decides there has
it at the path itself, and no higher layer has a map there. -/
theorem stack_eq_value_iff (ls : List (Layer κ α)) {p : List κ} {a : α} :
    (stack ls).entry p = some (.value a) ↔ ∃ above l, DecidesIn ls above l p ∧
      l.entry p = some (.value a) ∧ ∀ h ∈ above, h.entry p ≠ some .map := by
  induction ls with
  | nil =>
      constructor
      · intro hvalue
        have hempty : (if p.isEmpty then some Entry.map else none : Option (Entry α)) = some (.value a) := hvalue
        split at hempty
        · cases hempty
        · cases hempty
      · rintro ⟨above, l, ⟨⟨below, hls⟩, -⟩, -⟩
        cases above <;> cases hls
  | cons upper ls ih =>
      show (upper.layOver (stack ls)).entry p = some (.value a) ↔ _
      rw [layOver_eq_value_iff, ih]
      constructor
      · rintro (hvalue | ⟨hnot, hmap, above, l, ⟨⟨below, rfl⟩, hdecides, habove⟩, hvalue, hmaps⟩)
        · refine ⟨[], upper, ⟨⟨ls, rfl⟩, upper.entry.decides_iff.mpr (Or.inr ⟨a, hvalue⟩), ?_⟩, hvalue, ?_⟩
          · exact fun h hh => absurd hh List.not_mem_nil
          · exact fun h hh => absurd hh List.not_mem_nil
        · exact ⟨upper :: above, l, ⟨⟨below, rfl⟩, hdecides, List.forall_mem_cons.mpr ⟨hnot, habove⟩⟩, hvalue,
            List.forall_mem_cons.mpr ⟨hmap, hmaps⟩⟩
      · rintro ⟨above, l, ⟨⟨below, hls⟩, hdecides, habove⟩, hvalue, hmaps⟩
        cases above with
        | nil =>
            obtain ⟨rfl, -⟩ := List.cons.inj hls
            exact Or.inl hvalue
        | cons first above =>
            obtain ⟨rfl, rfl⟩ := List.cons.inj hls
            obtain ⟨hnot, habove⟩ := List.forall_mem_cons.mp habove
            obtain ⟨hmap, hmaps⟩ := List.forall_mem_cons.mp hmaps
            exact Or.inr ⟨hnot, hmap, above, l, ⟨⟨below, rfl⟩, hdecides, habove⟩, hvalue, hmaps⟩

/-- A value hides what the lower layers have below it. -/
theorem stack_hidden {above below : List (Layer κ α)} {l : Layer κ α} {p : List κ} (h : l.Hides p)
    (habove : ∀ u ∈ above, u.entry p = none) : (stack (above ++ l :: below)).entry p = none := by
  induction above with
  | nil => exact entry_layOver_of_hides l (stack below) h
  | cons upper above ih =>
      obtain ⟨hupper, habove⟩ := List.forall_mem_cons.mp habove
      show (upper.layOver (stack (above ++ l :: below))).entry p = none
      by_cases hhides : upper.Hides p
      · exact entry_layOver_of_hides upper _ hhides
      · rw [entry_layOver upper _ hhides, hupper, ih habove]
        rfl

/-- The nested map has what the layers say, the highest one first. -/
structure Obeys (ls : List (Layer κ α)) (l : Layer κ α) : Prop where
  value_iff : ∀ p a, l.entry p = some (.value a) ↔ ∃ above u, DecidesIn ls above u p ∧
    u.entry p = some (.value a) ∧ ∀ h ∈ above, h.entry p ≠ some .map
  hidden : ∀ above u below p, ls = above ++ u :: below → u.Hides p → (∀ h ∈ above, h.entry p = none) →
    l.entry p = none

theorem stack_obeys (ls : List (Layer κ α)) : Obeys ls (stack ls) where
  value_iff _ _ := stack_eq_value_iff ls
  hidden := by
    rintro above u below p rfl h habove
    exact stack_hidden h habove

end Layer

end NestedLayers
