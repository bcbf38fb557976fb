import Mathlib
import Powerful.Decimals
import Powerful.JsonTree

/-! # Patches that take nothing away

`Json.compare` lists the operations that lead from one tree to another: objects are compared
member by member, arrays of the same length element by element, and all else is replaced.  The
comparison of arrays of different lengths is a parameter.  `Json.additive` keeps of such a list
what neither removes a member nor adds a null.

What an additive patch leads to is `Json.overlay`: the second tree laid over the first one
(`Json.applyAll_additive`).  The result covers the second tree (`Json.covers_overlay`), and a tree
that covers the second one needs no patch (`Json.additive_compare_eq_nil`).

Trees are compared by what is at each path (`Json.Alike`), so that the order of members does not
matter.  An index is written without leading zeros. -/

namespace Json

/-! ### Reading at a path -/

/-- The member or the element that a token names. -/
def child (t : String) : Json → Option Json
  | .obj fs => fs.lookup t
  | .arr xs => (index? t).bind fun i => if toString i = t then xs[i]? else none
  | _ => none

def valueAt : List String → Json → Option Json
  | [], j => some j
  | t :: ts, j => (j.child t).bind (valueAt ts)

/-- What a tree is at its root. -/
inductive Kind where
  | map
  | list (n : ℕ)
  | leaf (j : Json)

def kind : Json → Kind
  | .obj _ => .map
  | .arr xs => .list xs.length
  | j => .leaf j

def entryAt (p : List String) (j : Json) : Option Kind := (valueAt p j).map kind

/-- The same at each path. -/
def Alike (a b : Json) : Prop := ∀ p, entryAt p a = entryAt p b

/-- Each member of the second tree is in the first one, a null possibly not. -/
def Covers (a b : Json) : Prop :=
  ∀ p e, entryAt p b = some e → entryAt p a = some e ∨ (e = .leaf .null ∧ entryAt p a = none)

/-- Arrays at the same path have the same length. -/
def Even (a b : Json) : Prop :=
  ∀ p m n, entryAt p a = some (.list m) → entryAt p b = some (.list n) → m = n

/-- No object has two members of one name. -/
def Distinct (j : Json) : Prop :=
  ∀ p fs, valueAt p j = some (.obj fs) → (fs.map Prod.fst).Nodup

theorem index?_toString (i : ℕ) : index? (toString i) = some i := by
  unfold index?
  rw [if_pos ⟨Decimals.toString_ne_nil i, List.all_eq_true.mpr (Decimals.isDigit_toString i)⟩]
  refine congrArg some ?_
  have hfold : ∀ (ds : List Char) (n : ℕ),
      ds.foldl (fun n c => 10 * n + (c.toNat - '0'.toNat)) n = Nat.ofDigitChars 10 ds n := by
    intro ds
    induction ds with
    | nil => exact fun n => (Nat.ofDigitChars_nil).symm
    | cons c ds ih =>
        intro n
        rw [List.foldl_cons, ih, Nat.ofDigitChars_cons]
  rw [hfold]
  exact Decimals.ofDigits_toString i

theorem child_arr_eq_some {t : String} {xs : List Json} {c : Json} :
    child t (.arr xs) = some c ↔ ∃ i : ℕ, t = toString i ∧ xs[i]? = some c := by
  constructor
  · intro h
    obtain ⟨i, -, hi⟩ := Option.bind_eq_some_iff.mp h
    split at hi
    · rename_i htext
      exact ⟨i, htext.symm, hi⟩
    · cases hi
  · rintro ⟨i, rfl, hi⟩
    simp only [child, index?_toString, Option.bind_some, if_true, hi]

theorem child_toString (i : ℕ) (xs : List Json) : child (toString i) (.arr xs) = xs[i]? := by
  simp only [child, index?_toString, Option.bind_some, if_true]

theorem sizeOf_child {t : String} {j c : Json} (h : j.child t = some c) : sizeOf c < sizeOf j := by
  cases j with
  | obj fs =>
      have hmem : (t, c) ∈ fs := by
        induction fs with
        | nil => cases h
        | cons f fs ih =>
            obtain ⟨k, v⟩ := f
            by_cases hk : t = k
            · subst hk
              rw [child, lookup_cons_self] at h
              rw [Option.some.inj h]
              exact List.mem_cons_self
            · rw [child, lookup_cons_ne hk] at h
              exact List.mem_cons_of_mem _ (ih h)
      have hlt := List.sizeOf_lt_of_mem hmem
      simp only [Json.obj.sizeOf_spec, Prod.mk.sizeOf_spec] at hlt ⊢
      omega
  | arr xs =>
      obtain ⟨i, -, hi⟩ := child_arr_eq_some.mp h
      have hlt := List.sizeOf_lt_of_mem (List.mem_of_getElem? hi)
      simp only [Json.arr.sizeOf_spec]
      omega
  | _ => cases h

/-- Induction over a tree by its members and elements. -/
theorem byChildren {P : Json → Prop} (h : ∀ j, (∀ t c, j.child t = some c → P c) → P j) (j : Json) :
    P j :=
  h j fun _ c hc =>
    have _hlt := sizeOf_child hc
    byChildren h c
termination_by sizeOf j
decreasing_by exact _hlt

theorem valueAt_append (p q : List String) (j : Json) :
    valueAt (p ++ q) j = (valueAt p j).bind (valueAt q) := by
  induction p generalizing j with
  | nil => rfl
  | cons t p ih =>
      rw [List.cons_append, valueAt, valueAt, Option.bind_assoc]
      exact congrArg _ (funext ih)

theorem entryAt_cons (t : String) (p : List String) (j : Json) :
    entryAt (t :: p) j = (j.child t).bind (entryAt p) := by
  unfold entryAt
  rw [valueAt, Option.map_bind]
  rfl

theorem Distinct.child {t : String} {j c : Json} (h : Distinct j) (hc : j.child t = some c) :
    Distinct c := fun p fs hp => h (t :: p) fs (by rw [valueAt, hc]; exact hp)

theorem Distinct.keys {fs : List (String × Json)} (h : Distinct (.obj fs)) :
    (fs.map Prod.fst).Nodup := h [] fs rfl

theorem distinct_iff {j : Json} : Distinct j ↔
    (∀ fs, j = .obj fs → (fs.map Prod.fst).Nodup) ∧ ∀ t c, j.child t = some c → Distinct c := by
  constructor
  · exact fun h => ⟨fun fs hfs => Distinct.keys (hfs ▸ h), fun t c hc => h.child hc⟩
  · rintro ⟨hkeys, hchildren⟩ p fs hp
    cases p with
    | nil => exact hkeys fs (Option.some.inj hp)
    | cons t p =>
        obtain ⟨c, hc, hp⟩ := Option.bind_eq_some_iff.mp hp
        exact hchildren t c hc p fs hp

theorem distinct_obj {fs : List (String × Json)} :
    Distinct (.obj fs) ↔ (fs.map Prod.fst).Nodup ∧ ∀ f ∈ fs, Distinct f.2 := by
  rw [distinct_iff]
  constructor
  · rintro ⟨hkeys, hchildren⟩
    exact ⟨hkeys fs rfl, fun f hf => hchildren f.1 f.2 (lookup_of_mem (hkeys fs rfl) hf)⟩
  · rintro ⟨hkeys, hmembers⟩
    refine ⟨fun gs hgs => Json.obj.inj hgs ▸ hkeys, fun t c hc => ?_⟩
    obtain ⟨front, back, hfs, -⟩ := List.lookup_eq_some_iff.mp hc
    exact hmembers (t, c) (hfs ▸ List.mem_append_right front List.mem_cons_self)

theorem distinct_leaf {j : Json} (h : ∀ t, j.child t = none) (hobj : ∀ fs, j ≠ .obj fs) :
    Distinct j :=
  distinct_iff.mpr ⟨fun fs hfs => absurd hfs (hobj fs), fun t c hc => by rw [h t] at hc; cases hc⟩

theorem distinct_str (s : String) : Distinct (.str s) := distinct_leaf (fun _ => rfl) nofun

theorem distinct_int (n : ℤ) : Distinct (.int n) := distinct_leaf (fun _ => rfl) nofun

theorem even_obj {fs gs : List (String × Json)}
    (h : ∀ g ∈ gs, ∀ v, fs.lookup g.1 = some v → Even v g.2) : Even (.obj fs) (.obj gs) := by
  intro p m n hm hn
  cases p with
  | nil => cases hm
  | cons t p =>
      rw [entryAt_cons] at hm hn
      obtain ⟨v, hv, hm⟩ := Option.bind_eq_some_iff.mp hm
      obtain ⟨w, hw, hn⟩ := Option.bind_eq_some_iff.mp hn
      obtain ⟨front, back, hgs, -⟩ := List.lookup_eq_some_iff.mp hw
      exact h (t, w) (hgs ▸ List.mem_append_right front List.mem_cons_self) v hv p m n hm hn

theorem even_leaf {a b : Json} (h : ∀ t, a.child t = none) (harr : ∀ xs, a ≠ .arr xs) : Even a b := by
  intro p m n hm hn
  cases p with
  | nil =>
      cases a with
      | arr xs => exact absurd rfl (harr xs)
      | _ => cases hm
  | cons t p =>
      rw [entryAt_cons, h t] at hm
      cases hm

theorem Even.child {t : String} {a b c d : Json} (h : Even a b) (hc : a.child t = some c)
    (hd : b.child t = some d) : Even c d := by
  intro p m n hm hn
  refine h (t :: p) m n ?_ ?_
  · rw [entryAt_cons, hc]
    exact hm
  · rw [entryAt_cons, hd]
    exact hn

theorem Covers.child {t : String} {a b c d : Json} (h : Covers a b) (hc : a.child t = some c)
    (hd : b.child t = some d) : Covers c d := by
  intro p e he
  have hcover := h (t :: p) e (by rw [entryAt_cons, hd]; exact he)
  rwa [entryAt_cons, hc] at hcover

/-- Trees that are alike cover the same. -/
theorem Covers.congr {a a' b : Json} (h : Covers a b) (ha : Alike a' a) : Covers a' b := by
  intro p e he
  rw [ha p]
  exact h p e he

theorem Covers.even {a b : Json} (h : Covers a b) : Even a b := by
  intro p m n hm hn
  rcases h p _ hn with hp | ⟨hnull, -⟩
  · rw [hm] at hp
    cases hp
    rfl
  · cases hnull

/-! ### Comparing -/

/-- An operation on the member or the element `t`. -/
def Op.under (t : String) : Op → Op
  | .add p v => .add (t :: p) v
  | .remove p => .remove (t :: p)
  | .replace p v => .replace (t :: p) v

section comparison
variable (uneven : List Json → List Json → List Op)

mutual

def compare : Json → Json → List Op
  | .obj fs, .obj gs =>
      compareMembers fs gs ++
        (fs.filter (fun f => (gs.lookup f.1).isNone)).map (fun f => .remove [f.1])
  | .arr xs, .arr ys =>
      if xs.length = ys.length then compareElements 0 xs ys else uneven xs ys
  | a, b => if a = b then [] else [.replace [] b]

def compareMembers (fs : List (String × Json)) : List (String × Json) → List Op
  | [] => []
  | (k, w) :: gs =>
      (match fs.lookup k with
        | none => [.add [k] w]
        | some v => (compare v w).map (Op.under k)) ++ compareMembers fs gs

def compareElements (i : ℕ) : List Json → List Json → List Op
  | x :: xs, y :: ys => (compare x y).map (Op.under (toString i)) ++ compareElements (i + 1) xs ys
  | _, _ => []

end

end comparison

/-- Nothing is removed, and no null is added. -/
def Op.isAdditive : Op → Bool
  | .add _ v => v ≠ .null
  | .remove _ => false
  | .replace _ _ => true

def additive (ops : List Op) : List Op := ops.filter Op.isAdditive

/-! ### Laying over -/

mutual

/-- The second tree over the first one. -/
def overlay : Json → Json → Json
  | .obj fs, .obj gs => .obj (overlayMembers fs gs)
  | .arr xs, .arr ys => .arr (overlayElements xs ys)
  | _, b => b

def overlayMembers (fs : List (String × Json)) : List (String × Json) → List (String × Json)
  | [] => fs
  | (k, w) :: gs =>
      match fs.lookup k with
      | none => overlayMembers (if w = .null then fs else fs ++ [(k, w)]) gs
      | some v => overlayMembers (putField k (overlay v w) fs) gs

def overlayElements : List Json → List Json → List Json
  | x :: xs, y :: ys => overlay x y :: overlayElements xs ys
  | _, ys => ys

end

/-! ### What a patch writes -/

/-- The member or the element `t` is written, and nothing else. -/
structure SetsChild (t : String) (c j j' : Json) : Prop where
  written : j'.child t = some c
  others : ∀ u, u ≠ t → j'.child u = j.child u
  kind : j'.kind = j.kind

theorem setsChild_obj (t : String) (c : Json) (fs : List (String × Json)) :
    SetsChild t c (.obj fs) (.obj (putField t c fs)) where
  written := lookup_putField_self t c fs
  others _ hu := lookup_putField_ne hu c fs
  kind := rfl

theorem setsChild_arr {i : ℕ} {xs : List Json} (hi : i < xs.length) (c : Json) :
    SetsChild (toString i) c (.arr xs) (.arr (xs.set i c)) where
  written := by rw [child_toString, List.getElem?_set_self hi]
  others u hu := by
    show (index? u).bind _ = (index? u).bind _
    refine congrArg _ (funext fun k => ?_)
    by_cases hk : toString k = u
    · have hne : i ≠ k := by
        rintro rfl
        exact hu hk.symm
      rw [if_pos hk, if_pos hk, List.getElem?_set_ne hne]
    · rw [if_neg hk, if_neg hk]
  kind := by
    show Kind.list _ = Kind.list _
    rw [List.length_set]

theorem SetsChild.entryAt_below {t : String} {c j j' : Json} (h : SetsChild t c j j')
    (p : List String) : entryAt (t :: p) j' = entryAt p c := by
  rw [entryAt_cons, h.written]
  rfl

theorem SetsChild.entryAt_apart {t : String} {c j j' : Json} (h : SetsChild t c j j')
    {p : List String} (hp : ∀ q, p ≠ t :: q) : entryAt p j' = entryAt p j := by
  cases p with
  | nil => exact congrArg some h.kind
  | cons u q =>
      have hu : u ≠ t := by
        rintro rfl
        exact hp q rfl
      rw [entryAt_cons, entryAt_cons, h.others u hu]

/-- A member or an element can be replaced by another. -/
theorem descend_cons {leaf : String → Json → Option Json} {t : String} {ts : List String}
    (hts : ts ≠ []) {j c c' : Json} (hc : j.child t = some c)
    (hbelow : descend leaf ts c = some c') :
    ∃ j', descend leaf (t :: ts) j = some j' ∧ SetsChild t c' j j' := by
  obtain ⟨u, us, rfl⟩ := List.exists_cons_of_ne_nil hts
  cases j with
  | obj fs =>
      have hlookup : fs.lookup t = some c := hc
      refine ⟨.obj (putField t c' fs), ?_, setsChild_obj t c' fs⟩
      simp only [descend, hlookup, hbelow, Option.bind_eq_bind, Option.bind_some]
  | arr xs =>
      obtain ⟨i, rfl, hi⟩ := child_arr_eq_some.mp hc
      have hlt := (List.getElem?_eq_some_iff.mp hi).1
      refine ⟨.arr (xs.set i c'), ?_, setsChild_arr hlt c'⟩
      simp only [descend, index?_toString, hi, hbelow, Option.bind_eq_bind, Option.bind_some]
  | _ => cases hc

/-- A change at a leaf is seen there and nowhere else. -/
theorem descend_spec {leaf : String → Json → Option Json} {t : String} {v : Json} :
    ∀ {q : List String} {j c c' : Json}, valueAt q j = some c → leaf t c = some c' →
      SetsChild t v c c' → ∃ j', descend leaf (q ++ [t]) j = some j' ∧
        (∀ r, entryAt (q ++ t :: r) j' = entryAt r v) ∧
        ∀ p, ¬ (q ++ [t]) <+: p → entryAt p j' = entryAt p j
  | [], j, c, c', hc, hleaf, hset => by
      obtain rfl := Option.some.inj hc
      refine ⟨c', hleaf, hset.entryAt_below, fun p hp => hset.entryAt_apart fun r hr => hp ?_⟩
      rw [hr]
      exact ⟨r, rfl⟩
  | u :: q, j, c, c', hc, hleaf, hset => by
      obtain ⟨d, hd, hq⟩ := Option.bind_eq_some_iff.mp hc
      obtain ⟨d', hdescend, hbelow, hapart⟩ := descend_spec hq hleaf hset
      obtain ⟨j', hj', hset'⟩ := descend_cons (by simp) hd hdescend
      refine ⟨j', hj', fun r => ?_, fun p hp => ?_⟩
      · rw [List.cons_append, hset'.entryAt_below, hbelow r]
      · by_cases hu : ∃ r, p = u :: r
        · obtain ⟨r, rfl⟩ := hu
          rw [hset'.entryAt_below, entryAt_cons, hd]
          refine hapart r fun hr => hp ?_
          rw [List.cons_append]
          exact List.cons_prefix_cons.mpr ⟨rfl, hr⟩
        · exact hset'.entryAt_apart fun r hr => hu ⟨r, hr⟩

def Op.path : Op → List String
  | .add p _ => p
  | .remove p => p
  | .replace p _ => p

def Op.value : Op → Json
  | .add _ v => v
  | .remove _ => .null
  | .replace _ v => v

/-- The operation writes a value that is there, or a member of an object that is there. -/
def Op.Fits (j : Json) : Op → Prop
  | .add p _ => ∃ q t, p = q ++ [t] ∧ entryAt q j = some .map
  | .remove _ => False
  | .replace p _ => (entryAt p j).isSome

/-- What is at each path behind operations that write to a tree. -/
structure Edits (ops : List Op) (j : Json) (e : List String → Option Kind) : Prop where
  written : ∀ op ∈ ops, ∀ r, e (op.path ++ r) = entryAt r op.value
  apart : ∀ p, (∀ op ∈ ops, ¬ op.path <+: p) → e p = entryAt p j

theorem Edits.unique {ops : List Op} {j : Json} {e e' : List String → Option Kind}
    (h : Edits ops j e) (h' : Edits ops j e') (p : List String) : e p = e' p := by
  by_cases hp : ∃ op ∈ ops, op.path <+: p
  · obtain ⟨op, hop, r, rfl⟩ := hp
    rw [h.written op hop, h'.written op hop]
  · push Not at hp
    rw [h.apart p hp, h'.apart p hp]

theorem Edits.perm {ops ops' : List Op} {j : Json} {e : List String → Option Kind}
    (h : Edits ops j e) (hperm : ops'.Perm ops) : Edits ops' j e where
  written op hop := h.written op (hperm.mem_iff.mp hop)
  apart p hp := h.apart p fun op hop => hp op (hperm.mem_iff.mpr hop)

theorem valueAt_of_entryAt {p : List String} {j : Json} {e : Kind} (h : entryAt p j = some e) :
    ∃ c, valueAt p j = some c ∧ c.kind = e := Option.map_eq_some_iff.mp h

theorem kind_eq_map {j : Json} (h : j.kind = .map) : ∃ fs, j = .obj fs := by
  cases j with
  | obj fs => exact ⟨fs, rfl⟩
  | _ => cases h

/-- One operation that fits. -/
theorem Op.Fits.apply {op : Op} {j : Json} (h : op.Fits j) :
    ∃ j', op.apply false j = some j' ∧ Edits [op] j fun p => entryAt p j' := by
  have hedits : ∀ {op : Op} {j' : Json}, (∀ r, entryAt (op.path ++ r) j' = entryAt r op.value) →
      (∀ p, ¬ op.path <+: p → entryAt p j' = entryAt p j) → Edits [op] j fun p => entryAt p j' :=
    fun hwritten hapart =>
      { written := fun op hop => by
          obtain rfl := List.mem_singleton.mp hop
          exact hwritten
        apart := fun p hp => hapart p (hp _ List.mem_cons_self) }
  cases op with
  | add p v =>
      obtain ⟨q, t, rfl, hq⟩ := h
      obtain ⟨c, hc, hmap⟩ := valueAt_of_entryAt hq
      obtain ⟨fs, rfl⟩ := kind_eq_map hmap
      have hleaf : addLeaf v t (.obj fs) = some (.obj (putField t v fs)) := rfl
      obtain ⟨j', hj', hwritten, hapart⟩ := descend_spec hc hleaf (setsChild_obj t v fs)
      refine ⟨j', ?_, hedits (fun r => ?_) hapart⟩
      · rw [Op.apply, if_neg (by simp)]
        exact hj'
      · rw [Op.path, List.append_assoc]
        exact hwritten r
  | remove p => exact h.elim
  | replace p v =>
      rcases List.eq_nil_or_concat p with rfl | ⟨q, t, hp⟩
      · exact ⟨v, rfl, hedits (fun r => rfl) fun p hp => absurd List.nil_prefix hp⟩
      · rw [List.concat_eq_append] at hp
        subst hp
        obtain ⟨e, he⟩ := Option.isSome_iff_exists.mp h
        obtain ⟨d, hd, -⟩ := valueAt_of_entryAt he
        rw [valueAt_append] at hd
        obtain ⟨c, hc, hchild⟩ := Option.bind_eq_some_iff.mp hd
        have hd : c.child t = some d := by simpa [valueAt] using hchild
        have hleaf : ∃ c', replaceLeaf false v t c = some c' ∧ SetsChild t v c c' := by
          cases c with
          | obj fs =>
              have hlookup : fs.lookup t = some d := hd
              refine ⟨_, ?_, setsChild_obj t v fs⟩
              simp [replaceLeaf, hlookup]
          | arr xs =>
              obtain ⟨i, rfl, hi⟩ := child_arr_eq_some.mp hd
              have hlt := (List.getElem?_eq_some_iff.mp hi).1
              refine ⟨_, ?_, setsChild_arr hlt v⟩
              simp only [replaceLeaf, index?_toString, Option.bind_eq_bind, Option.bind_some, if_pos hlt]
          | _ => cases hd
        obtain ⟨c', hc', hset⟩ := hleaf
        obtain ⟨j', hj', hwritten, hapart⟩ := descend_spec hc hc' hset
        refine ⟨j', ?_, hedits (fun r => ?_) hapart⟩
        · rw [Op.apply, Json.replace, if_neg (by simp)]
          exact hj'
        · rw [Op.path, List.append_assoc]
          exact hwritten r

/-- Neither operation writes below the other. -/
def Op.Apart (op op' : Op) : Prop := ¬ op.path <+: op'.path ∧ ¬ op'.path <+: op.path

theorem Op.Apart.symm {op op' : Op} (h : op.Apart op') : op'.Apart op := ⟨h.2, h.1⟩

theorem Op.Apart.incomparable {op op' : Op} (h : op.Apart op') {p : List String}
    (hp : op.path <+: p) : ¬ op'.path <+: p := by
  intro hp'
  rcases List.prefix_or_prefix_of_prefix hp hp' with hle | hle
  · exact h.1 hle
  · exact h.2 hle

/-- An operation still fits behind one that is apart from it. -/
theorem Op.Fits.after {op op' : Op} {j j' : Json} (h : op'.Fits j) (hapart : op.Apart op')
    (hedits : Edits [op] j fun p => entryAt p j') : op'.Fits j' := by
  have hkeep : ∀ p, ¬ op.path <+: p → entryAt p j' = entryAt p j := fun p hp =>
    hedits.apart p fun o ho => by
      obtain rfl := List.mem_singleton.mp ho
      exact hp
  cases op' with
  | add p v =>
      obtain ⟨q, t, rfl, hq⟩ := h
      refine ⟨q, t, rfl, ?_⟩
      rw [hkeep q fun hp => hapart.1 (hp.trans (List.prefix_append q [t]))]
      exact hq
  | remove p => exact h
  | replace p v =>
      show (entryAt p j').isSome
      rw [hkeep p hapart.1]
      exact h

/-- **Patch**: operations that fit and are apart from each other are all applied, and each is seen
behind them. -/
theorem applyAll_edits : ∀ {ops : List Op} {j : Json}, ops.Pairwise Op.Apart →
    (∀ op ∈ ops, op.Fits j) →
    ∃ j', applyAll false ops j = some j' ∧ Edits ops j fun p => entryAt p j'
  | [], j, _, _ => ⟨j, rfl, { written := nofun, apart := fun _ _ => rfl }⟩
  | op :: ops, j, hapart, hfits => by
      obtain ⟨hop, hops⟩ := List.pairwise_cons.mp hapart
      obtain ⟨hfit, hfits⟩ := List.forall_mem_cons.mp hfits
      obtain ⟨j₁, hj₁, hedits₁⟩ := hfit.apply
      obtain ⟨j', hj', hedits⟩ := applyAll_edits hops fun o ho => (hfits o ho).after (hop o ho) hedits₁
      refine ⟨j', ?_, ?_, ?_⟩
      · rw [applyAll, hj₁]
        exact hj'
      · intro o ho r
        rcases List.mem_cons.mp ho with rfl | ho
        · rw [← hedits₁.written o List.mem_cons_self r]
          exact hedits.apart _ fun o' ho' => (hop o' ho').incomparable (List.prefix_append _ r)
        · exact hedits.written o ho r
      · intro p hp
        obtain ⟨hhead, hp⟩ := List.forall_mem_cons.mp hp
        rw [hedits.apart p hp, hedits₁.apart p]
        intro o ho
        obtain rfl := List.mem_singleton.mp ho
        exact hhead

/-! ### The members of two trees -/

def children : Json → List (String × Json)
  | .obj fs => fs
  | .arr xs => xs.zipIdx.map fun e => (toString e.2, e.1)
  | _ => []

/-- Two objects, or two arrays of the same length. -/
inductive Parallel : Json → Json → Prop
  | maps (fs gs : List (String × Json)) : Parallel (.obj fs) (.obj gs)
  | lists {xs ys : List Json} (h : xs.length = ys.length) : Parallel (.arr xs) (.arr ys)

theorem toString_inj {m n : ℕ} (h : toString m = toString n) : m = n := by
  have hindex := index?_toString m
  rw [h, index?_toString] at hindex
  exact (Option.some.inj hindex).symm

theorem nodup_children {b : Json} (h : Distinct b) : ((children b).map Prod.fst).Nodup := by
  cases b with
  | obj gs => exact h.keys
  | arr ys =>
      have hkeys : (children (.arr ys)).map Prod.fst = (ys.zipIdx.map Prod.snd).map toString := by
        rw [children, List.map_map, List.map_map]
        rfl
      rw [hkeys]
      exact (List.nodup_zipIdx_map_snd ys).map fun m n hmn => toString_inj hmn
  | _ => exact List.nodup_nil

theorem mem_children {b : Json} (h : Distinct b) {t : String} {c : Json} :
    (t, c) ∈ children b ↔ b.child t = some c := by
  cases b with
  | obj gs =>
      constructor
      · exact fun hmem => lookup_of_mem h.keys hmem
      · intro hlookup
        obtain ⟨front, back, hgs, -⟩ := List.lookup_eq_some_iff.mp hlookup
        rw [children, hgs]
        exact List.mem_append_right front List.mem_cons_self
  | arr ys =>
      rw [child_arr_eq_some, children, List.mem_map]
      constructor
      · rintro ⟨⟨y, i⟩, hmem, heq⟩
        obtain ⟨rfl, rfl⟩ := Prod.mk.inj heq
        exact ⟨i, rfl, List.mk_mem_zipIdx_iff_getElem?.mp hmem⟩
      · rintro ⟨i, rfl, hi⟩
        exact ⟨(c, i), List.mk_mem_zipIdx_iff_getElem?.mpr hi, rfl⟩
  | _ => exact ⟨nofun, nofun⟩

section comparison
variable (uneven : List Json → List Json → List Op)

/-- The operations on one member or element of the second tree. -/
def compareChild (t : String) (v : Option Json) (w : Json) : List Op :=
  match v with
  | none => [.add [t] w]
  | some v => (compare uneven v w).map (Op.under t)

theorem compareMembers_eq (fs gs : List (String × Json)) :
    compareMembers uneven fs gs = gs.flatMap fun g => compareChild uneven g.1 (fs.lookup g.1) g.2 := by
  induction gs with
  | nil => rfl
  | cons g gs ih =>
      rw [compareMembers, ih]
      rfl

theorem compareElements_eq : ∀ {xs ys : List Json} (zs : List Json), xs.length = ys.length →
    compareElements uneven zs.length xs ys = (ys.zipIdx zs.length).flatMap fun e =>
      compareChild uneven (toString e.2) (child (toString e.2) (.arr (zs ++ xs))) e.1
  | [], [], _, _ => rfl
  | [], _ :: _, _, h => by cases h
  | _ :: _, [], _, h => by cases h
  | x :: xs, y :: ys, zs, h => by
      have hchild : child (toString zs.length) (.arr (zs ++ x :: xs)) = some x := by
        rw [child_toString, List.getElem?_append_right (Nat.le_refl _), Nat.sub_self]
        rfl
      have ih := compareElements_eq (zs ++ [x]) (Nat.succ.inj h)
      rw [List.append_assoc, List.length_append] at ih
      rw [compareElements, List.zipIdx_cons, List.flatMap_cons, hchild]
      exact congrArg _ ih

theorem additive_flatMap {α : Type} (l : List α) (f : α → List Op) :
    additive (l.flatMap f) = l.flatMap fun a => additive (f a) := List.filter_flatMap

/-- Parallel trees are compared member by member, or element by element. -/
theorem additive_compare {a b : Json} (h : Parallel a b) :
    additive (compare uneven a b) =
      (children b).flatMap fun c => additive (compareChild uneven c.1 (a.child c.1) c.2) := by
  cases h with
  | maps fs gs =>
      have hremoves : additive ((fs.filter (fun f => (gs.lookup f.1).isNone)).map
          (fun f => .remove [f.1])) = [] := by
        refine List.filter_eq_nil_iff.mpr fun op hop => ?_
        obtain ⟨f, -, rfl⟩ := List.mem_map.mp hop
        exact Bool.false_ne_true
      rw [compare, additive, List.filter_append]
      show additive (compareMembers uneven fs gs) ++ additive _ = _
      rw [hremoves, List.append_nil, compareMembers_eq, additive_flatMap]
      rfl
  | @lists xs ys h =>
      have helements := compareElements_eq uneven [] h
      rw [List.length_nil] at helements
      rw [compare, if_pos h, helements, additive_flatMap, children, List.flatMap_map]
      rfl

/-- Other trees are replaced as a whole, unless they are equal. -/
theorem parallel_or_whole {a b : Json} (h : Even a b) : Parallel a b ∨
    (compare uneven a b = (if a = b then [] else [.replace [] b]) ∧ overlay a b = b ∧
      (a.kind = b.kind → a = b)) := by
  cases a <;> cases b
  case obj.obj fs gs => exact Or.inl (.maps fs gs)
  case arr.arr xs ys => exact Or.inl (.lists (h [] _ _ rfl rfl))
  all_goals
    refine Or.inr ⟨?_, ?_, ?_⟩
    · rw [compare] <;> exact nofun
    · rw [overlay] <;> exact nofun
    · intro hkind
      cases hkind
      try rfl

theorem Op.isAdditive_under (t : String) (op : Op) : (op.under t).isAdditive = op.isAdditive := by
  cases op <;> rfl

theorem Op.path_under (t : String) (op : Op) : (op.under t).path = t :: op.path := by
  cases op <;> rfl

theorem Op.value_under (t : String) (op : Op) : (op.under t).value = op.value := by
  cases op <;> rfl

theorem additive_under (t : String) (ops : List Op) :
    additive (ops.map (Op.under t)) = (additive ops).map (Op.under t) := by
  unfold additive
  rw [List.filter_map]
  exact congrArg _ (List.filter_congr fun op _ => Op.isAdditive_under t op)

theorem additive_compareChild_none (t : String) (w : Json) :
    additive (compareChild uneven t none w) = if w = .null then [] else [.add [t] w] := by
  by_cases hw : w = .null
  · rw [if_pos hw, hw]
    rfl
  · rw [if_neg hw]
    exact List.filter_eq_self.mpr fun op hop => by
      obtain rfl := List.mem_singleton.mp hop
      exact decide_eq_true hw

theorem additive_compareChild_some (t : String) (v w : Json) :
    additive (compareChild uneven t (some v) w) =
      (additive (compare uneven v w)).map (Op.under t) := additive_under t _

theorem path_of_mem_compareChild {t : String} {v : Option Json} {w : Json} {op : Op}
    (h : op ∈ additive (compareChild uneven t v w)) : ∃ p, op.path = t :: p := by
  cases v with
  | none =>
      rw [additive_compareChild_none] at h
      split at h
      · cases h
      · obtain rfl := List.mem_singleton.mp h
        exact ⟨[], rfl⟩
  | some v =>
      rw [additive_compareChild_some] at h
      obtain ⟨op', -, rfl⟩ := List.mem_map.mp h
      exact ⟨op'.path, Op.path_under t op'⟩

/-- An operation on parallel trees is one on a member or an element of the second tree. -/
theorem mem_additive_compare {a b : Json} (h : Parallel a b) (hb : Distinct b) {op : Op} :
    op ∈ additive (compare uneven a b) ↔
      ∃ t w, b.child t = some w ∧ op ∈ additive (compareChild uneven t (a.child t) w) := by
  rw [additive_compare uneven h, List.mem_flatMap]
  constructor
  · rintro ⟨⟨t, w⟩, hmem, hop⟩
    exact ⟨t, w, (mem_children hb).mp hmem, hop⟩
  · rintro ⟨t, w, hw, hop⟩
    exact ⟨(t, w), (mem_children hb).mpr hw, hop⟩

end comparison

/-! ### The tree that is laid over -/

def overlayChild : Option Json → Option Json → Option Json
  | v, none => v
  | none, some w => if w = .null then none else some w
  | some v, some w => some (overlay v w)

theorem lookup_overlayMembers (t : String) : ∀ {fs gs : List (String × Json)},
    (gs.map Prod.fst).Nodup →
    (overlayMembers fs gs).lookup t = overlayChild (fs.lookup t) (gs.lookup t)
  | fs, [], _ => by
      rw [overlayMembers]
      cases fs.lookup t <;> rfl
  | fs, (k, w) :: gs, h => by
      rw [List.map_cons, List.nodup_cons] at h
      have hnone : gs.lookup k = none := lookup_eq_none_of_notMem h.1
      rw [overlayMembers]
      cases hk : fs.lookup k with
      | none =>
          simp only
          rw [lookup_overlayMembers t h.2, ← putField_of_lookup_none hk]
          by_cases ht : t = k
          · subst ht
            rw [hnone, hk, lookup_cons_self]
            by_cases hw : w = .null
            · rw [if_pos hw, hk, hw]
              rfl
            · rw [if_neg hw, lookup_putField_self]
              exact (if_neg hw).symm
          · rw [lookup_cons_ne ht]
            split
            · rfl
            · rw [lookup_putField_ne ht]
      | some v =>
          simp only
          rw [lookup_overlayMembers t h.2]
          by_cases ht : t = k
          · subst ht
            rw [hnone, hk, lookup_cons_self, lookup_putField_self]
            rfl
          · rw [lookup_cons_ne ht, lookup_putField_ne ht]

theorem length_overlayElements : ∀ {xs ys : List Json}, xs.length = ys.length →
    (overlayElements xs ys).length = ys.length
  | [], [], _ => rfl
  | [], _ :: _, h => by cases h
  | _ :: _, [], h => by cases h
  | x :: xs, y :: ys, h => by
      rw [overlayElements, List.length_cons, List.length_cons, length_overlayElements (Nat.succ.inj h)]

theorem getElem?_overlayElements : ∀ {xs ys : List Json} (i : ℕ), xs.length = ys.length →
    (overlayElements xs ys)[i]? = overlayChild xs[i]? ys[i]?
  | [], [], _, _ => rfl
  | [], _ :: _, _, h => by cases h
  | _ :: _, [], _, h => by cases h
  | x :: xs, y :: ys, 0, _ => by
      rw [overlayElements]
      rfl
  | x :: xs, y :: ys, i + 1, h => by
      rw [overlayElements, List.getElem?_cons_succ, List.getElem?_cons_succ, List.getElem?_cons_succ]
      exact getElem?_overlayElements i (Nat.succ.inj h)

theorem child_arr_eq_none {t : String} (h : ∀ i : ℕ, t ≠ toString i) (xs : List Json) :
    child t (.arr xs) = none := by
  cases hc : child t (.arr xs) with
  | none => rfl
  | some c =>
      obtain ⟨i, ht, -⟩ := child_arr_eq_some.mp hc
      exact absurd ht (h i)

theorem child_overlay {a b : Json} (h : Parallel a b) (hb : Distinct b) (t : String) :
    (overlay a b).child t = overlayChild (a.child t) (b.child t) := by
  cases h with
  | maps fs gs =>
      rw [overlay]
      exact lookup_overlayMembers t hb.keys
  | @lists xs ys h =>
      rw [overlay]
      by_cases ht : ∃ i : ℕ, t = toString i
      · obtain ⟨i, rfl⟩ := ht
        rw [child_toString, child_toString, child_toString, getElem?_overlayElements i h]
      · push Not at ht
        rw [child_arr_eq_none ht, child_arr_eq_none ht, child_arr_eq_none ht]
        rfl

theorem kind_overlay {a b : Json} (h : Parallel a b) : (overlay a b).kind = b.kind := by
  cases h with
  | maps fs gs => rw [overlay]; rfl
  | lists h =>
      rw [overlay]
      exact congrArg Kind.list (length_overlayElements h)

theorem Parallel.kind {a b : Json} (h : Parallel a b) : a.kind = b.kind := by
  cases h with
  | maps fs gs => rfl
  | lists h => exact congrArg Kind.list h

/-- An element of the second array has one of the first array beside it. -/
theorem Parallel.map_of_missing {a b : Json} (h : Parallel a b) {t : String} {w : Json}
    (ha : a.child t = none) (hb : b.child t = some w) : a.kind = .map := by
  cases h with
  | maps fs gs => rfl
  | @lists xs ys h =>
      obtain ⟨i, rfl, hi⟩ := child_arr_eq_some.mp hb
      have hlt := (List.getElem?_eq_some_iff.mp hi).1
      rw [child_toString, List.getElem?_eq_none_iff] at ha
      omega

theorem entryAt_overlay_cons {a b : Json} (h : Parallel a b) (hb : Distinct b) (t : String)
    (p : List String) :
    entryAt (t :: p) (overlay a b) = (overlayChild (a.child t) (b.child t)).bind (entryAt p) := by
  rw [entryAt_cons, child_overlay h hb]

theorem kind_eq_null {j : Json} (h : j.kind = .leaf .null) : j = .null := by
  cases j with
  | null => rfl
  | _ => cases h

/-- Nothing is below a null. -/
theorem entryAt_null {p : List String} {e : Kind} (h : entryAt p .null = some e) :
    p = [] ∧ e = .leaf .null := by
  cases p with
  | nil => exact ⟨rfl, (Option.some.inj h).symm⟩
  | cons t p =>
      rw [entryAt_cons] at h
      cases h

section comparison
variable (uneven : List Json → List Json → List Op)

/-- What the additive operations write is the second tree laid over the first one. -/
theorem overlay_edits (b : Json) : ∀ {a : Json}, Distinct b → Even a b →
    Edits (additive (compare uneven a b)) a fun p => entryAt p (overlay a b) := by
  induction b using byChildren with
  | h b ih =>
    intro a hb heven
    rcases parallel_or_whole uneven heven with hpar | ⟨hcompare, hoverlay, -⟩
    · refine ⟨fun op hop r => ?_, fun p hp => ?_⟩
      · obtain ⟨t, w, hw, hop⟩ := (mem_additive_compare uneven hpar hb).mp hop
        cases hv : a.child t with
        | none =>
            rw [hv, additive_compareChild_none] at hop
            split at hop
            · cases hop
            · rename_i hnull
              obtain rfl := List.mem_singleton.mp hop
              show entryAt (t :: r) (overlay a b) = entryAt r w
              rw [entryAt_overlay_cons hpar hb, hv, hw]
              exact congrArg (Option.bind · (entryAt r)) (if_neg hnull)
        | some v =>
            rw [hv, additive_compareChild_some] at hop
            obtain ⟨op', hop', rfl⟩ := List.mem_map.mp hop
            rw [Op.path_under, Op.value_under, List.cons_append, entryAt_overlay_cons hpar hb, hv, hw]
            exact (ih t w hw (hb.child hw) (heven.child hv hw)).written op' hop' r
      · have hnot : ∀ {t w} {op : Op}, b.child t = some w →
            op ∈ additive (compareChild uneven t (a.child t) w) → ¬ op.path <+: p :=
          fun hw hop => hp _ ((mem_additive_compare uneven hpar hb).mpr ⟨_, _, hw, hop⟩)
        cases p with
        | nil => exact congrArg some ((kind_overlay hpar).trans hpar.kind.symm)
        | cons t p =>
            show entryAt (t :: p) (overlay a b) = entryAt (t :: p) a
            rw [entryAt_overlay_cons hpar hb, entryAt_cons]
            cases hw : b.child t with
            | none => cases a.child t <;> rfl
            | some w =>
                cases hv : a.child t with
                | none =>
                    by_cases hnull : w = .null
                    · exact congrArg (Option.bind · (entryAt p)) (if_pos hnull)
                    · refine absurd ⟨p, rfl⟩ (@hnot t w (.add [t] w) hw ?_)
                      rw [hv, additive_compareChild_none, if_neg hnull]
                      exact List.mem_cons_self
                | some v =>
                    refine (ih t w hw (hb.child hw) (heven.child hv hw)).apart p fun op hop hprefix => ?_
                    refine @hnot t w (op.under t) hw ?_ ?_
                    · rw [hv, additive_compareChild_some]
                      exact List.mem_map_of_mem hop
                    · rw [Op.path_under]
                      exact List.cons_prefix_cons.mpr ⟨rfl, hprefix⟩
    · rw [hcompare, hoverlay]
      by_cases heq : a = b
      · rw [if_pos heq, heq]
        exact ⟨nofun, fun _ _ => rfl⟩
      · rw [if_neg heq]
        refine ⟨fun op hop r => ?_, fun p hp => absurd List.nil_prefix (hp _ List.mem_cons_self)⟩
        obtain rfl := List.mem_singleton.mp hop
        rfl

/-- The additive operations are apart from each other. -/
theorem additive_pairwise (b : Json) : ∀ {a : Json}, Distinct b → Even a b →
    (additive (compare uneven a b)).Pairwise Op.Apart := by
  induction b using byChildren with
  | h b ih =>
    intro a hb heven
    rcases parallel_or_whole uneven heven with hpar | ⟨hcompare, -, -⟩
    · rw [additive_compare uneven hpar, List.pairwise_flatMap]
      constructor
      · rintro ⟨t, w⟩ hmem
        have hw := (mem_children hb).mp hmem
        cases hv : a.child t with
        | none =>
            rw [additive_compareChild_none]
            split
            · exact List.Pairwise.nil
            · exact List.pairwise_singleton _ _
        | some v =>
            rw [additive_compareChild_some, List.pairwise_map]
            refine (ih t w hw (hb.child hw) (heven.child hv hw)).imp fun {op op'} hapart => ?_
            simpa only [Op.Apart, Op.path_under, List.cons_prefix_cons, true_and] using hapart
      · refine (List.pairwise_map.mp (nodup_children hb)).imp fun {c d} hne op hop op' hop' => ?_
        obtain ⟨p, hp⟩ := path_of_mem_compareChild uneven hop
        obtain ⟨p', hp'⟩ := path_of_mem_compareChild uneven hop'
        rw [Op.Apart, hp, hp', List.cons_prefix_cons, List.cons_prefix_cons]
        exact ⟨fun h => hne h.1, fun h => hne h.1.symm⟩
    · rw [hcompare]
      split
      · exact List.Pairwise.nil
      · exact List.pairwise_singleton _ _

theorem Op.Fits.under {t : String} {a v : Json} {op : Op} (hv : a.child t = some v)
    (h : op.Fits v) : (op.under t).Fits a := by
  have hentry : ∀ p, entryAt (t :: p) a = entryAt p v := fun p => by
    rw [entryAt_cons, hv]
    rfl
  cases op with
  | add p w =>
      obtain ⟨q, u, rfl, hq⟩ := h
      exact ⟨t :: q, u, rfl, (hentry q).trans hq⟩
  | remove p => exact h
  | replace p w =>
      show (entryAt (t :: p) a).isSome
      rw [hentry p]
      exact h

/-- The additive operations fit the first tree. -/
theorem additive_fits (b : Json) : ∀ {a : Json}, Distinct b → Even a b →
    ∀ op ∈ additive (compare uneven a b), op.Fits a := by
  induction b using byChildren with
  | h b ih =>
    intro a hb heven op hop
    rcases parallel_or_whole uneven heven with hpar | ⟨hcompare, -, -⟩
    · obtain ⟨t, w, hw, hop⟩ := (mem_additive_compare uneven hpar hb).mp hop
      cases hv : a.child t with
      | none =>
          rw [hv, additive_compareChild_none] at hop
          split at hop
          · cases hop
          · obtain rfl := List.mem_singleton.mp hop
            exact ⟨[], t, rfl, congrArg some (hpar.map_of_missing hv hw)⟩
      | some v =>
          rw [hv, additive_compareChild_some] at hop
          obtain ⟨op', hop', rfl⟩ := List.mem_map.mp hop
          exact (ih t w hw (hb.child hw) (heven.child hv hw) op' hop').under hv
    · rw [hcompare] at hop
      split at hop
      · cases hop
      · obtain rfl := List.mem_singleton.mp hop
        rfl

/-- **Laying over**: the additive operations of a comparison, in any order, apply to the first tree
and lead to the second one laid over it. -/
theorem applyAll_additive {a b : Json} {ops : List Op} (hb : Distinct b) (heven : Even a b)
    (hops : ops.Perm (compare uneven a b)) :
    ∃ j, applyAll false (additive ops) a = some j ∧ Alike j (overlay a b) := by
  have hperm : (additive ops).Perm (additive (compare uneven a b)) := hops.filter _
  have hapart : (additive ops).Pairwise Op.Apart :=
    (hperm.pairwise_iff fun {_ _} h => Op.Apart.symm h).mpr (additive_pairwise uneven b hb heven)
  have hfits : ∀ op ∈ additive ops, op.Fits a := fun op hop =>
    additive_fits uneven b hb heven op (hperm.mem_iff.mp hop)
  obtain ⟨j, hj, hedits⟩ := applyAll_edits hapart hfits
  exact ⟨j, hj, hedits.unique ((overlay_edits uneven b hb heven).perm hperm)⟩

/-- What is laid over is there afterwards. -/
theorem covers_overlay (b : Json) : ∀ {a : Json}, Distinct b → Even a b → Covers (overlay a b) b := by
  induction b using byChildren with
  | h b ih =>
    intro a hb heven p e he
    rcases parallel_or_whole (fun _ _ => []) heven with hpar | ⟨-, hoverlay, -⟩
    · cases p with
      | nil =>
          refine Or.inl ?_
          rw [← he]
          exact congrArg some (kind_overlay hpar)
      | cons t p =>
          rw [entryAt_cons] at he
          obtain ⟨w, hw, he⟩ := Option.bind_eq_some_iff.mp he
          rw [entryAt_overlay_cons hpar hb, hw]
          cases hv : a.child t with
          | none =>
              by_cases hnull : w = .null
              · rw [hnull] at he
                obtain ⟨-, rfl⟩ := entryAt_null he
                exact Or.inr ⟨rfl, congrArg (Option.bind · (entryAt p)) (if_pos hnull)⟩
              · refine Or.inl ?_
                rw [← he]
                exact congrArg (Option.bind · (entryAt p)) (if_neg hnull)
          | some v => exact ih t w hw (hb.child hw) (heven.child hv hw) p e he
    · rw [hoverlay]
      exact Or.inl he

/-- **No patch**: nothing is left of a comparison exactly if the first tree covers the second one. -/
theorem additive_compare_eq_nil (b : Json) : ∀ {a : Json}, Distinct b → Even a b →
    (additive (compare uneven a b) = [] ↔ Covers a b) := by
  induction b using byChildren with
  | h b ih =>
    intro a hb heven
    rcases parallel_or_whole uneven heven with hpar | ⟨hcompare, -, hkind⟩
    · constructor
      · intro hnil p e he
        cases p with
        | nil =>
            refine Or.inl ?_
            rw [← he]
            exact congrArg some hpar.kind
        | cons t p =>
            rw [entryAt_cons] at he
            obtain ⟨w, hw, he⟩ := Option.bind_eq_some_iff.mp he
            have hnone : additive (compareChild uneven t (a.child t) w) = [] := by
              refine List.eq_nil_iff_forall_not_mem.mpr fun op hop => ?_
              have hmem := (mem_additive_compare uneven hpar hb).mpr ⟨t, w, hw, hop⟩
              rw [hnil] at hmem
              cases hmem
            rw [entryAt_cons]
            cases hv : a.child t with
            | none =>
                rw [hv, additive_compareChild_none] at hnone
                have hnull : w = .null := by
                  by_contra hne
                  rw [if_neg hne] at hnone
                  cases hnone
                rw [hnull] at he
                exact Or.inr ⟨(entryAt_null he).2, rfl⟩
            | some v =>
                rw [hv, additive_compareChild_some, List.map_eq_nil_iff] at hnone
                exact (ih t w hw (hb.child hw) (heven.child hv hw)).mp hnone p e he
      · intro hcovers
        refine List.eq_nil_iff_forall_not_mem.mpr fun op hop => ?_
        obtain ⟨t, w, hw, hop⟩ := (mem_additive_compare uneven hpar hb).mp hop
        cases hv : a.child t with
        | none =>
            have hentry := hcovers [t] w.kind (by rw [entryAt_cons, hw]; rfl)
            rw [entryAt_cons, hv] at hentry
            rcases hentry with hsome | ⟨hnull, -⟩
            · cases hsome
            · rw [hv, additive_compareChild_none, if_pos (kind_eq_null hnull)] at hop
              cases hop
        | some v =>
            have hnil := (ih t w hw (hb.child hw) (heven.child hv hw)).mpr (hcovers.child hv hw)
            rw [hv, additive_compareChild_some, hnil] at hop
            cases hop
    · rw [hcompare]
      constructor
      · intro hnil p e he
        refine Or.inl ?_
        split at hnil
        · rename_i heq
          rw [heq]
          exact he
        · cases hnil
      · intro hcovers
        rcases hcovers [] b.kind rfl with hroot | ⟨-, hroot⟩
        · rw [if_pos (hkind (Option.some.inj hroot))]
          rfl
        · cases hroot

end comparison

end Json
