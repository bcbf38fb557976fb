import Mathlib

/-! # JSON trees, their differences and patches

`Json` is the tree a JSON library reads a text into; integers and decimal fractions are
different nodes, and an object keeps its members in order.  `Json.diff` is the recursive
comparison of two trees as a list of remove, replace and add operations (RFC 6902), and
`Json.applyAll` replays such a list on a tree.  The comparison of two arrays is a parameter:
the results here are about objects.

`Json.replay` says what becomes of a difference between two flat objects when it is replayed
on the empty object: the members in which the second differs from the first.
`Json.applyAll_eq_none` says when a replay is refused, and `Json.arrayLength_replace` that a
replacement below an array keeps its length.  `Json.get?_replace` and `Json.get?_replace_apart`
say what is read behind a replacement. -/

inductive Json where
  | null
  | bool (b : Bool)
  | int (n : ℤ)
  | dbl (q : ℚ)
  | str (s : String)
  | arr (xs : List Json)
  | obj (fs : List (String × Json))

namespace Json

/-! ### Decidable equality -/

mutual

def decEq : (a b : Json) → Decidable (a = b)
  | .null, .null => isTrue rfl
  | .bool a, .bool b => decidable_of_iff (a = b) (by simp)
  | .int a, .int b => decidable_of_iff (a = b) (by simp)
  | .dbl a, .dbl b => decidable_of_iff (a = b) (by simp)
  | .str a, .str b => decidable_of_iff (a = b) (by simp)
  | .arr a, .arr b => @decidable_of_iff _ (a = b) (by simp) (decEqList a b)
  | .obj a, .obj b => @decidable_of_iff _ (a = b) (by simp) (decEqFields a b)
  | .null, .bool _ | .null, .int _ | .null, .dbl _ | .null, .str _ | .null, .arr _
  | .null, .obj _ | .bool _, .null | .bool _, .int _ | .bool _, .dbl _ | .bool _, .str _
  | .bool _, .arr _ | .bool _, .obj _ | .int _, .null | .int _, .bool _ | .int _, .dbl _
  | .int _, .str _ | .int _, .arr _ | .int _, .obj _ | .dbl _, .null | .dbl _, .bool _
  | .dbl _, .int _ | .dbl _, .str _ | .dbl _, .arr _ | .dbl _, .obj _ | .str _, .null
  | .str _, .bool _ | .str _, .int _ | .str _, .dbl _ | .str _, .arr _ | .str _, .obj _
  | .arr _, .null | .arr _, .bool _ | .arr _, .int _ | .arr _, .dbl _ | .arr _, .str _
  | .arr _, .obj _ | .obj _, .null | .obj _, .bool _ | .obj _, .int _ | .obj _, .dbl _
  | .obj _, .str _ | .obj _, .arr _ => isFalse (by simp)

def decEqList : (a b : List Json) → Decidable (a = b)
  | [], [] => isTrue rfl
  | [], _ :: _ | _ :: _, [] => isFalse (by simp)
  | a :: as, b :: bs =>
      @decidable_of_iff _ (a = b ∧ as = bs) (by simp)
        (@instDecidableAnd _ _ (decEq a b) (decEqList as bs))

def decEqFields : (a b : List (String × Json)) → Decidable (a = b)
  | [], [] => isTrue rfl
  | [], _ :: _ | _ :: _, [] => isFalse (by simp)
  | (k, a) :: as, (l, b) :: bs =>
      @decidable_of_iff _ (k = l ∧ a = b ∧ as = bs) (by simp [and_assoc])
        (@instDecidableAnd _ _ _ (@instDecidableAnd _ _ (decEq a b) (decEqFields as bs)))

end

instance : DecidableEq Json := decEq

/-! ### Operations on members -/

/-- Set the member `k`, in its place or at the end. -/
def putField (k : String) (v : Json) : List (String × Json) → List (String × Json)
  | [] => [(k, v)]
  | (l, w) :: fs => if l = k then (k, v) :: fs else (l, w) :: putField k v fs

theorem lookup_cons_self (k : String) (v : Json) (fs : List (String × Json)) :
    ((k, v) :: fs).lookup k = some v := by simp [List.lookup]

theorem lookup_cons_ne {k l : String} (h : l ≠ k) (v : Json) (fs : List (String × Json)) :
    ((k, v) :: fs).lookup l = fs.lookup l := by simp [List.lookup, beq_false_of_ne h]

theorem lookup_putField_self (k : String) (v : Json) (fs : List (String × Json)) :
    (putField k v fs).lookup k = some v := by
  induction fs with
  | nil => exact lookup_cons_self k v []
  | cons f fs ih =>
      obtain ⟨m, w⟩ := f
      by_cases hm : m = k
      · simp [putField, hm]
      · rw [putField, if_neg hm, lookup_cons_ne (Ne.symm hm), ih]

theorem lookup_putField_ne {k l : String} (h : l ≠ k) (v : Json) (fs : List (String × Json)) :
    (putField k v fs).lookup l = fs.lookup l := by
  induction fs with
  | nil => exact lookup_cons_ne h v []
  | cons f fs ih =>
      obtain ⟨m, w⟩ := f
      by_cases hm : m = k
      · rw [putField, if_pos hm, hm, lookup_cons_ne h, lookup_cons_ne h]
      · rw [putField, if_neg hm]
        by_cases hl : l = m
        · rw [hl, lookup_cons_self, lookup_cons_self]
        · rw [lookup_cons_ne hl, lookup_cons_ne hl, ih]

theorem putField_of_lookup_none {k : String} {v : Json} {fs : List (String × Json)}
    (h : fs.lookup k = none) : putField k v fs = fs ++ [(k, v)] := by
  induction fs with
  | nil => rfl
  | cons f fs ih =>
      obtain ⟨m, w⟩ := f
      by_cases hm : k = m
      · rw [hm, lookup_cons_self] at h
        cases h
      · rw [lookup_cons_ne hm] at h
        simp [putField, Ne.symm hm, ih h]

theorem lookup_eq_none_of_notMem {k : String} {fs : List (String × Json)}
    (h : k ∉ fs.map Prod.fst) : fs.lookup k = none := by
  induction fs with
  | nil => rfl
  | cons f fs ih =>
      obtain ⟨m, w⟩ := f
      simp only [List.map_cons, List.mem_cons, not_or] at h
      rw [lookup_cons_ne h.1, ih h.2]

theorem lookup_of_mem {fs : List (String × Json)} (hn : (fs.map Prod.fst).Nodup)
    {f : String × Json} (hf : f ∈ fs) : fs.lookup f.1 = some f.2 := by
  induction fs with
  | nil => cases hf
  | cons g fs ih =>
      obtain ⟨m, w⟩ := g
      simp only [List.map_cons, List.nodup_cons] at hn
      rcases List.mem_cons.mp hf with rfl | hf
      · exact lookup_cons_self _ _ _
      · have hne : f.1 ≠ m := fun h => hn.1 (h ▸ List.mem_map_of_mem hf)
        rw [lookup_cons_ne hne, ih hn.2 hf]

/-! ### Differences -/

/-- One operation of a patch; a path lists member names and array indices. -/
inductive Op where
  | add (path : List String) (v : Json)
  | remove (path : List String)
  | replace (path : List String) (v : Json)
deriving DecidableEq

section differences
variable (arrays : List String → List Json → List Json → List Op)

mutual

/-- The operations that lead from the first tree to the second. -/
def diff (path : List String) : Json → Json → List Op
  | .obj fs, .obj gs =>
      if fs = gs then [] else
        diffFields path gs fs ++
          (gs.filter (fun g => (fs.lookup g.1).isNone)).map (fun g => .add (path ++ [g.1]) g.2)
  | .arr xs, .arr ys => if xs = ys then [] else arrays path xs ys
  | s, t => if s = t then [] else [.replace path t]

/-- Compare the members of the first object with those of the second. -/
def diffFields (path : List String) (gs : List (String × Json)) :
    List (String × Json) → List Op
  | [] => []
  | (k, v) :: fs =>
      (match gs.lookup k with
        | none => [.remove (path ++ [k])]
        | some w => diff (path ++ [k]) v w) ++ diffFields path gs fs

end

end differences

/-! ### Patches -/

/-- The array index a path token stands for. -/
def index? (t : String) : Option ℕ :=
  if t.toList ≠ [] ∧ t.toList.all Char.isDigit then
    some (t.toList.foldl (fun n c => 10 * n + (c.toNat - '0'.toNat)) 0)
  else none

/-- Go down to the parent of the addressed place and change it there.  Every member and
index on the way has to exist. -/
def descend (leaf : String → Json → Option Json) : List String → Json → Option Json
  | [], _ => none
  | [t], j => leaf t j
  | t :: ts, .obj fs => do
      let child ← fs.lookup t
      let child' ← descend leaf ts child
      some (.obj (putField t child' fs))
  | t :: ts, .arr xs => do
      let i ← index? t
      let child ← xs[i]?
      let child' ← descend leaf ts child
      some (.arr (xs.set i child'))
  | _, _ => none

/-- Replace at the parent; `lenient` lets the replacement create a missing member. -/
def replaceLeaf (lenient : Bool) (v : Json) (t : String) : Json → Option Json
  | .obj fs => if (fs.lookup t).isSome ∨ lenient then some (.obj (putField t v fs)) else none
  | .arr xs => do
      let i ← index? t
      if i < xs.length then some (.arr (xs.set i v)) else none
  | _ => none

/-- Add at the parent; `-` stands for the end of an array. -/
def addLeaf (v : Json) (t : String) : Json → Option Json
  | .obj fs => some (.obj (putField t v fs))
  | .arr xs =>
      if t = "-" then some (.arr (xs ++ [v])) else do
        let i ← index? t
        if i ≤ xs.length then some (.arr (xs.insertIdx i v)) else none
  | _ => none

/-- Remove at the parent; a member that is not there is no error. -/
def removeLeaf (t : String) : Json → Option Json
  | .obj fs => some (.obj (fs.filter (fun f => f.1 ≠ t)))
  | .arr xs => do
      let i ← index? t
      if i < xs.length then some (.arr (xs.eraseIdx i)) else none
  | _ => none

/-- Replace the value at a path. -/
def replace (lenient : Bool) (path : List String) (v : Json) (j : Json) : Option Json :=
  if path = [] then some v else descend (replaceLeaf lenient v) path j

/-- Apply one operation; `none` when it is refused. -/
def Op.apply (lenient : Bool) : Op → Json → Option Json
  | .add path v, j => if path = [] then some v else descend (addLeaf v) path j
  | .remove path, j => if path = [] then none else descend removeLeaf path j
  | .replace path v, j => Json.replace lenient path v j

/-- Apply the operations one after the other. -/
def applyAll (lenient : Bool) : List Op → Json → Option Json
  | [], j => some j
  | op :: ops, j => (op.apply lenient j).bind (applyAll lenient ops)

theorem applyAll_append (lenient : Bool) (ops ops' : List Op) (j : Json) :
    applyAll lenient (ops ++ ops') j = (applyAll lenient ops j).bind (applyAll lenient ops') := by
  induction ops generalizing j with
  | nil => rfl
  | cons op ops ih =>
      simp only [List.cons_append, applyAll]
      cases op.apply lenient j with
      | none => rfl
      | some j' => exact ih j'

/-! ### Replaying a difference on the empty object -/

/-- Two values that `diff` compares without looking inside: equal ones, or not both objects
and not both arrays. -/
def Plain (v w : Json) : Prop :=
  v = w ∨ ((∀ fs gs, ¬(v = .obj fs ∧ w = .obj gs)) ∧ ∀ xs ys, ¬(v = .arr xs ∧ w = .arr ys))

/-- Two objects with the same members in the same order, compared member by member. -/
def Flat (fs gs : List (String × Json)) : Prop :=
  List.Forall₂ (fun f g => f.1 = g.1 ∧ Plain f.2 g.2) fs gs

/-- The members of `gs` whose value is not the one in `fs`. -/
def differing (fs gs : List (String × Json)) : List (String × Json) :=
  gs.filter (fun g => fs.lookup g.1 ≠ some g.2)

section replays
variable (arrays : List String → List Json → List Json → List Op)

theorem diff_of_plain {path : List String} {v w : Json} (h : Plain v w) :
    diff arrays path v w = if v = w then [] else [.replace path w] := by
  rcases h with rfl | ⟨hobj, harr⟩
  · cases v <;> simp [diff]
  · cases v <;> cases w <;> simp_all [diff]

theorem diffFields_append (path : List String) (gs fs fs' : List (String × Json)) :
    diffFields arrays path gs (fs ++ fs') =
      diffFields arrays path gs fs ++ diffFields arrays path gs fs' := by
  induction fs with
  | nil => rfl
  | cons f fs ih => simp [diffFields, ih]

/-- Comparing flat members yields one replacement for each member that differs. -/
theorem diffFields_flat {F G fs gs : List (String × Json)} (h : Flat fs gs)
    (hF : ∀ f ∈ fs, F.lookup f.1 = some f.2) (hG : ∀ g ∈ gs, G.lookup g.1 = some g.2) :
    diffFields arrays [] G fs =
      (differing F gs).map (fun g => .replace [g.1] g.2) := by
  induction h with
  | nil => rfl
  | @cons f g fs gs hfg _ ih =>
      obtain ⟨k, v⟩ := f
      obtain ⟨l, w⟩ := g
      obtain ⟨rfl, hp⟩ := hfg
      have hv := hF (k, v) (by simp)
      have hw := hG (k, w) (by simp)
      have ih' := ih (fun f hf => hF f (by simp [hf])) (fun g hg => hG g (by simp [hg]))
      simp only [differing, ne_eq] at ih' hv hw ⊢
      rw [diffFields, hw, ih', List.filter_cons, hv]
      simp only [List.nil_append, diff_of_plain arrays hp, Option.some.injEq]
      by_cases hvw : v = w <;> simp [hvw]

end replays

theorem applyAll_replaces {ds : List (String × Json)} (hn : (ds.map Prod.fst).Nodup) :
    ∀ {acc : List (String × Json)}, (∀ d ∈ ds, acc.lookup d.1 = none) →
      applyAll true (ds.map (fun d => .replace [d.1] d.2)) (.obj acc) = some (.obj (acc ++ ds)) := by
  induction ds with
  | nil => intro acc _; simp [applyAll]
  | cons d ds ih =>
      intro acc hacc
      obtain ⟨k, v⟩ := d
      simp only [List.map_cons, List.nodup_cons] at hn
      have hk : putField k v acc = acc ++ [(k, v)] := putField_of_lookup_none (hacc (k, v) (by simp))
      have hrest : ∀ d ∈ ds, (acc ++ [(k, v)]).lookup d.1 = none := by
        intro d hd
        have hne : d.1 ≠ k := fun h => hn.1 (h ▸ List.mem_map_of_mem hd)
        rw [← hk, lookup_putField_ne hne]
        exact hacc d (by simp [hd])
      simp [applyAll, Op.apply, Json.replace, descend, replaceLeaf, hk, ih hn.2 hrest]

theorem differing_keys_nodup {fs gs : List (String × Json)} (hn : (gs.map Prod.fst).Nodup) :
    ((differing fs gs).map Prod.fst).Nodup :=
  hn.sublist (List.filter_sublist.map Prod.fst)

/-- A member of the difference: the one of the second object, unless the first has it too. -/
theorem lookup_differing {fs gs : List (String × Json)} (hn : (gs.map Prod.fst).Nodup) (k : String) :
    (differing fs gs).lookup k =
      (gs.lookup k).bind (fun w => if fs.lookup k = some w then none else some w) := by
  unfold differing
  induction gs with
  | nil => rfl
  | cons g gs ih =>
      obtain ⟨l, w⟩ := g
      simp only [List.map_cons, List.nodup_cons] at hn
      have hrest : k = l → ((gs.filter (fun g => fs.lookup g.1 ≠ some g.2)).lookup k) = none := by
        rintro rfl
        apply lookup_eq_none_of_notMem
        intro hmem
        obtain ⟨d, hd, hdk⟩ := List.mem_map.mp hmem
        exact hn.1 (hdk ▸ List.mem_map_of_mem (List.mem_filter.mp hd).1)
      rw [List.filter_cons]
      by_cases hk : k = l
      · subst hk
        rw [lookup_cons_self, Option.bind_some]
        by_cases hw : fs.lookup k = some w
        · simpa [hw] using hrest rfl
        · simp [hw]
      · rw [lookup_cons_ne hk, ← ih hn.2]
        by_cases hw : fs.lookup l = some w
        · simp [hw]
        · rw [if_pos (by simpa using hw), lookup_cons_ne hk]

theorem Flat.keys {fs gs : List (String × Json)} (h : Flat fs gs) :
    fs.map Prod.fst = gs.map Prod.fst := by
  induction h with
  | nil => rfl
  | cons hfg _ ih => simp [hfg.1, ih]

/-- **Replay**: the difference of two flat objects, replayed on the empty object, gives the
members in which the second differs from the first. -/
theorem replay (arrays : List String → List Json → List Json → List Op)
    {fs gs : List (String × Json)} (h : Flat fs gs) (hn : (gs.map Prod.fst).Nodup) :
    applyAll true (diff arrays [] (.obj fs) (.obj gs)) (.obj []) =
      some (.obj (differing fs gs)) := by
  have hnf : (fs.map Prod.fst).Nodup := by rw [h.keys]; exact hn
  by_cases hfg : fs = gs
  · subst hfg
    have hd : differing fs fs = [] := by
      simp only [differing, List.filter_eq_nil_iff]
      intro g hg
      simp [lookup_of_mem hn hg]
    simp [diff, applyAll, hd]
  · have hadd : gs.filter (fun g => (fs.lookup g.1).isNone) = [] := by
      rw [List.filter_eq_nil_iff]
      intro g hg
      have hmem : g.1 ∈ fs.map Prod.fst := by rw [h.keys]; exact List.mem_map_of_mem hg
      obtain ⟨f, hf, hk⟩ := List.mem_map.mp hmem
      simp [← hk, lookup_of_mem hnf hf]
    have hd := diffFields_flat arrays h (fun f hf => lookup_of_mem hnf hf)
      (fun g hg => lookup_of_mem hn hg)
    rw [diff, if_neg hfg, hadd, List.map_nil, List.append_nil, hd]
    have hr := applyAll_replaces (@differing_keys_nodup fs gs hn) (fun d _ => (rfl : List.lookup d.1 [] = none))
    simpa using hr

/-- An addition below a member that the patched object lacks is refused. -/
theorem add_below_missing {lenient : Bool} {k l : String} {v : Json} {acc : List (String × Json)}
    (h : acc.lookup k = none) : (Op.add [k, l] v).apply lenient (.obj acc) = none := by
  simp [Op.apply, descend, h]

/-- **Refusal**: between flat members stands one that is the empty object on the left and an
inhabited object on the right.  The replay on the empty object is refused there. -/
theorem replay_refused (arrays : List String → List Json → List Json → List Op)
    {fs gs fs' gs' : List (String × Json)} {k l : String} {v : Json} {es : List (String × Json)}
    (h : Flat fs gs)
    (hn : ((gs ++ (k, .obj ((l, v) :: es)) :: gs').map Prod.fst).Nodup)
    (hk : (fs ++ (k, .obj []) :: fs').map Prod.fst =
      (gs ++ (k, .obj ((l, v) :: es)) :: gs').map Prod.fst) :
    applyAll true (diff arrays [] (.obj (fs ++ (k, .obj []) :: fs'))
      (.obj (gs ++ (k, .obj ((l, v) :: es)) :: gs'))) (.obj []) = none := by
  have hnf := hk ▸ hn
  have hne : fs ++ (k, .obj []) :: fs' ≠ gs ++ (k, .obj ((l, v) :: es)) :: gs' := by
    intro he
    have hl := lookup_of_mem hnf (show (k, .obj []) ∈ _ by simp)
    have hr := lookup_of_mem hn (show (k, .obj ((l, v) :: es)) ∈ _ by simp)
    rw [he] at hl
    simp only at hl hr
    rw [hr] at hl
    simp at hl
  have hd := @diffFields_flat arrays (fs ++ (k, .obj []) :: fs') _ _ _ h
    (fun f hf => lookup_of_mem hnf (by simp [hf])) (fun g hg => lookup_of_mem hn (by simp [hg]))
  have hr := lookup_of_mem hn (show (k, .obj ((l, v) :: es)) ∈ _ by simp)
  have hsub : ∀ d ∈ differing (fs ++ (k, .obj []) :: fs') gs, d ∈ gs :=
    fun d hd => (List.mem_filter.mp hd).1
  rw [List.map_append, List.nodup_append] at hn
  have hkeys : (differing (fs ++ (k, .obj []) :: fs') gs).lookup k = none := by
    apply lookup_eq_none_of_notMem
    intro hmem
    obtain ⟨d, hdm, hdk⟩ := List.mem_map.mp hmem
    exact hn.2.2 _ (List.mem_map_of_mem (hsub d hdm)) k (by simp) hdk
  rw [diff, if_neg hne, diffFields_append, hd, List.append_assoc, applyAll_append,
    applyAll_replaces (differing_keys_nodup hn.1) (by simp)]
  simp only at hr
  simp [diffFields, hr, diff, applyAll, add_below_missing hkeys]

/-! ### Replacements and array lengths -/

/-- The number of elements of an array. -/
def elements : Json → Option ℕ
  | .arr xs => some xs.length
  | _ => none

/-- The number of elements of the array that is the member `k`. -/
def arrayLength (k : String) : Json → Option ℕ
  | .obj fs => (fs.lookup k).bind elements
  | _ => none

/-- A replacement below a value leaves it an array of the same length, or no array. -/
theorem elements_descend {lenient : Bool} {v : Json} {ts : List String} {j j' : Json}
    (h : descend (replaceLeaf lenient v) ts j = some j') : elements j' = elements j := by
  cases ts with
  | nil => simp [descend] at h
  | cons t ts =>
      cases ts with
      | nil =>
          simp only [descend] at h
          cases j with
          | obj fs =>
              simp only [replaceLeaf] at h
              split at h
              · obtain rfl := Option.some.inj h
                rfl
              · cases h
          | arr xs =>
              simp only [replaceLeaf, Option.bind_eq_bind, Option.bind_eq_some_iff] at h
              obtain ⟨i, -, h⟩ := h
              split at h
              · obtain rfl := Option.some.inj h
                simp [elements]
              · cases h
          | _ => cases h
      | cons u us =>
          cases j with
          | obj fs =>
              simp only [descend, Option.bind_eq_bind, Option.bind_eq_some_iff, Option.some.injEq] at h
              obtain ⟨c, -, c', -, rfl⟩ := h
              rfl
          | arr xs =>
              simp only [descend, Option.bind_eq_bind, Option.bind_eq_some_iff, Option.some.injEq] at h
              obtain ⟨i, -, c, -, c', -, rfl⟩ := h
              simp [elements]
          | _ => cases h

/-- A replacement in an object gives an object. -/
theorem replace_obj {lenient : Bool} {path : List String} (hroot : path ≠ []) {v j' : Json}
    {fs : List (String × Json)} (h : replace lenient path v (.obj fs) = some j') :
    ∃ gs, j' = .obj gs := by
  rw [replace, if_neg hroot] at h
  obtain ⟨t, ts, rfl⟩ := List.exists_cons_of_ne_nil hroot
  cases ts with
  | nil =>
      simp only [descend, replaceLeaf] at h
      split at h
      · exact ⟨_, (Option.some.inj h).symm⟩
      · cases h
  | cons u us =>
      simp only [descend, Option.bind_eq_bind, Option.bind_eq_some_iff, Option.some.injEq] at h
      obtain ⟨c, -, c', -, rfl⟩ := h
      exact ⟨_, rfl⟩

/-- A replacement anywhere but at the member `k` itself keeps the length of the array there. -/
theorem arrayLength_replace {lenient : Bool} {path : List String} {k : String} {v j' : Json}
    {fs : List (String × Json)} (hroot : path ≠ []) (hpath : path ≠ [k])
    (h : replace lenient path v (.obj fs) = some j') :
    arrayLength k j' = arrayLength k (.obj fs) := by
  rw [replace, if_neg hroot] at h
  obtain ⟨t, ts, rfl⟩ := List.exists_cons_of_ne_nil hroot
  cases ts with
  | nil =>
      have hne : k ≠ t := by
        rintro rfl
        exact hpath rfl
      simp only [descend, replaceLeaf] at h
      split at h
      · obtain rfl := Option.some.inj h
        rw [arrayLength, arrayLength, lookup_putField_ne hne]
      · cases h
  | cons u us =>
      simp only [descend, Option.bind_eq_bind, Option.bind_eq_some_iff, Option.some.injEq] at h
      obtain ⟨c, hc, c', hc', rfl⟩ := h
      rw [arrayLength, arrayLength]
      by_cases hk : k = t
      · subst hk
        rw [lookup_putField_self, hc]
        exact elements_descend hc'
      · rw [lookup_putField_ne hk]

/-- A replacement of the member `k` itself. -/
theorem arrayLength_replace_self {lenient : Bool} {k : String} {v j' : Json}
    {fs : List (String × Json)} (h : replace lenient [k] v (.obj fs) = some j') :
    arrayLength k j' = elements v := by
  simp only [replace, List.cons_ne_nil, if_false, descend, replaceLeaf] at h
  split at h
  · obtain rfl := Option.some.inj h
    rw [arrayLength, lookup_putField_self]
    rfl
  · cases h

/-! ### Reading at a path -/

/-- The value at a path. -/
def get? : List String → Json → Option Json
  | [], j => some j
  | t :: ts, .obj fs => (fs.lookup t).bind (get? ts)
  | t :: ts, .arr xs => (index? t).bind fun i => xs[i]?.bind (get? ts)
  | _ :: _, _ => none

/-- Two paths that part at tokens that name different members and different elements. -/
def Apart : List String → List String → Prop
  | t :: ts, u :: us => (t = u ∧ Apart ts us) ∨ (t ≠ u ∧ ∀ i, index? t = some i → index? u ≠ some i)
  | _, _ => False

/-- A change of another member or element is not seen. -/
theorem get?_putField_ne {t u : String} (h : u ≠ t) (v : Json) (us : List String)
    (fs : List (String × Json)) : get? (u :: us) (.obj (putField t v fs)) = get? (u :: us) (.obj fs) := by
  simp only [get?, lookup_putField_ne h]

theorem get?_set_ne {i : ℕ} {u : String} (h : index? u ≠ some i) (v : Json) (us : List String)
    (xs : List Json) : get? (u :: us) (.arr (xs.set i v)) = get? (u :: us) (.arr xs) := by
  simp only [get?]
  cases hu : index? u with
  | none => rfl
  | some k =>
      have hne : i ≠ k := by
        rintro rfl
        exact h hu
      rw [Option.bind_some, Option.bind_some, List.getElem?_set_ne hne]

/-- A replacement is read back. -/
theorem get?_replaceLeaf {lenient : Bool} {v : Json} {t : String} {j j' : Json}
    (h : replaceLeaf lenient v t j = some j') : get? [t] j' = some v := by
  cases j with
  | obj fs =>
      simp only [replaceLeaf] at h
      split at h
      · obtain rfl := Option.some.inj h
        simp only [get?, lookup_putField_self, Option.bind_some]
      · cases h
  | arr xs =>
      simp only [replaceLeaf, Option.bind_eq_bind, Option.bind_eq_some_iff] at h
      obtain ⟨i, hi, h⟩ := h
      split at h
      · rename_i hlt
        obtain rfl := Option.some.inj h
        simp only [get?, hi, Option.bind_some, List.getElem?_set_self hlt]
      · cases h
  | _ => cases h

theorem get?_descend {lenient : Bool} {v : Json} : ∀ {ts : List String} {j j' : Json},
    descend (replaceLeaf lenient v) ts j = some j' → get? ts j' = some v
  | [], _, _, h => by simp [descend] at h
  | [t], _, _, h => by
      simp only [descend] at h
      exact get?_replaceLeaf h
  | t :: u :: us, j, j', h => by
      cases j with
      | obj fs =>
          simp only [descend, Option.bind_eq_bind, Option.bind_eq_some_iff, Option.some.injEq] at h
          obtain ⟨c, -, c', hc', rfl⟩ := h
          rw [get?, lookup_putField_self, Option.bind_some]
          exact get?_descend hc'
      | arr xs =>
          simp only [descend, Option.bind_eq_bind, Option.bind_eq_some_iff, Option.some.injEq] at h
          obtain ⟨i, hi, c, hc, c', hc', rfl⟩ := h
          have hlt : i < xs.length := (List.getElem?_eq_some_iff.mp hc).1
          rw [get?, hi, Option.bind_some, List.getElem?_set_self hlt, Option.bind_some]
          exact get?_descend hc'
      | _ => cases h

theorem get?_replace {lenient : Bool} {path : List String} {v j j' : Json}
    (h : replace lenient path v j = some j') : get? path j' = some v := by
  unfold replace at h
  split at h
  · rename_i hroot
    obtain rfl := Option.some.inj h
    rw [hroot, get?]
  · exact get?_descend h

/-- A replacement is not seen apart from it. -/
theorem get?_replaceLeaf_apart {lenient : Bool} {v : Json} {t u : String} {us : List String} {j j' : Json}
    (hne : u ≠ t) (hindex : ∀ i, index? t = some i → index? u ≠ some i)
    (h : replaceLeaf lenient v t j = some j') : get? (u :: us) j' = get? (u :: us) j := by
  cases j with
  | obj fs =>
      simp only [replaceLeaf] at h
      split at h
      · obtain rfl := Option.some.inj h
        exact get?_putField_ne hne v us fs
      · cases h
  | arr xs =>
      simp only [replaceLeaf, Option.bind_eq_bind, Option.bind_eq_some_iff] at h
      obtain ⟨i, hi, h⟩ := h
      split at h
      · obtain rfl := Option.some.inj h
        exact get?_set_ne (hindex i hi) v us xs
      · cases h
  | _ => cases h

theorem get?_descend_apart {lenient : Bool} {v : Json} : ∀ {ts us : List String} {j j' : Json},
    Apart ts us → descend (replaceLeaf lenient v) ts j = some j' → get? us j' = get? us j
  | [], _, _, _, hapart, _ => hapart.elim
  | _ :: _, [], _, _, hapart, _ => hapart.elim
  | [t], u :: us, j, j', hapart, h => by
      rcases hapart with ⟨-, hbelow⟩ | ⟨hne, hindex⟩
      · exact hbelow.elim
      · simp only [descend] at h
        exact get?_replaceLeaf_apart (Ne.symm hne) hindex h
  | t :: t' :: ts, u :: us, j, j', hapart, h => by
      cases j with
      | obj fs =>
          simp only [descend, Option.bind_eq_bind, Option.bind_eq_some_iff, Option.some.injEq] at h
          obtain ⟨c, hc, c', hc', rfl⟩ := h
          rcases hapart with ⟨rfl, hbelow⟩ | ⟨hne, -⟩
          · simp only [get?, lookup_putField_self, hc, Option.bind_some]
            exact get?_descend_apart hbelow hc'
          · exact get?_putField_ne (Ne.symm hne) c' us fs
      | arr xs =>
          simp only [descend, Option.bind_eq_bind, Option.bind_eq_some_iff, Option.some.injEq] at h
          obtain ⟨i, hi, c, hc, c', hc', rfl⟩ := h
          rcases hapart with ⟨rfl, hbelow⟩ | ⟨-, hindex⟩
          · have hlt : i < xs.length := (List.getElem?_eq_some_iff.mp hc).1
            simp only [get?, hi, hc, List.getElem?_set_self hlt, Option.bind_some]
            exact get?_descend_apart hbelow hc'
          · exact get?_set_ne (hindex i hi) c' us xs
      | _ => cases h

theorem get?_replace_apart {lenient : Bool} {path path' : List String} {v j j' : Json}
    (hapart : Apart path path') (h : replace lenient path v j = some j') : get? path' j' = get? path' j := by
  unfold replace at h
  split at h
  · rename_i hroot
    rw [hroot] at hapart
    exact hapart.elim
  · exact get?_descend_apart hapart h

end Json
