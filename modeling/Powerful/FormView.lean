import Mathlib
import Powerful.Model

/-! # The form of a case

The page shows a case in a form, where the headers and queries of a node are pairs of a name and a
value, and sends what the form holds as a case again.  `postToView` and `viewToPost` convert the
one into the other.

On the way back a pair is kept if its value has a length.  A number and a boolean have none, so
the case comes back as it was if and only if all headers and queries are texts
(`viewToPost_postToView_iff`). -/

namespace Powerful

namespace Form

/-! ### Cases -/

/-- A scalar, as YAML gives it. -/
inductive Scalar where
  | null
  | bool (b : Bool)
  | int (n : ℤ)
  | dbl (q : ℚ)
  | str (s : String)
deriving DecidableEq

namespace Scalar

/-- What an `if` makes of a value. -/
def truthy : Scalar → Bool
  | null => false
  | bool b => b
  | int n => n ≠ 0
  | dbl q => q ≠ 0
  | str s => s ≠ ""

/-- The property `length`, which only texts have. -/
def length : Scalar → Option ℕ
  | str s => some s.length
  | _ => none

end Scalar

/-- A member of an object, which may be missing. -/
inductive Member (α : Type) where
  | undefined
  | null
  | value (a : α)

namespace Member
variable {α β : Type}

/-- Maps and arrays are true, whatever they hold. -/
def truthy : Member α → Bool
  | value _ => true
  | _ => false

def map (f : α → β) : Member α → Member β
  | undefined => .undefined
  | null => .null
  | value a => .value (f a)

end Member

abbrev Fields := StringMap Scalar

structure Entry where
  name : String
  value : Scalar

/-- A node, with the members that the form leaves alone. -/
structure Node (α : Type) where
  headers : Member α
  queries : Member α
  others : StringMap Json

structure CaseObject (α : Type) where
  trace : List (Node α)
  validate : Option Json
  others : StringMap Json

/-- What stands for the headers in the form: the pairs, or still the map. -/
abbrev Shown := Fields ⊕ List Entry

/-! ### The conversions -/

section
variable (enumerate : Fields → List (Sigma fun _ : String => Scalar))

/-- `for (let k in obj)` finds no keys in `null`. -/
def objToArray : Member Fields → Member Shown
  | .undefined => .undefined
  | .null => .undefined
  | .value obj =>
      let result := (enumerate obj).map fun e => (⟨e.1, e.2⟩ : Entry)
      if 0 < result.length then .value (.inr result) else .undefined

/-- The case for the form; without headers and queries it is the case itself. -/
def postToView (obj : CaseObject Fields) : CaseObject Shown :=
  if 0 < (obj.trace.filter fun tr => tr.headers.truthy || tr.queries.truthy).length then
    { obj with trace := obj.trace.map fun tr =>
        { tr with headers := objToArray enumerate tr.headers, queries := objToArray enumerate tr.queries } }
  else
    { obj with trace := obj.trace.map fun tr =>
        { tr with headers := tr.headers.map .inl, queries := tr.queries.map .inl } }

end

def keeps (h : Entry) : Bool :=
  h.name ≠ "" && h.value.truthy && (match h.value.length with | some n => 0 < n | none => false)

/-- The assignment `result[h.name] = h.value`; for the name `__proto__` it sets no member. -/
def assign (result : Fields) (h : Entry) : Fields :=
  if h.name = "__proto__" then result else result.insert h.name h.value

/-- The loop over the pairs. -/
def collect (kvs : List Entry) : Fields :=
  kvs.foldl (fun result h => if keeps h then assign result h else result) ∅

/-- A map has no `forEach`. -/
def arrayToObj : Shown → Option (Option Fields)
  | .inl _ => none
  | .inr kvs =>
      let result := collect kvs
      some (if result.entries = [] then none else some result)

/-- What becomes of the headers of a node. -/
def restore (headers : Member Shown) : Option (Member Fields) :=
  match headers with
  | .value kvs => (arrayToObj kvs).map fun res => res.elim .undefined .value
  | _ => some .undefined

def restoreNode (tr : Node Shown) : Option (Node Fields) := do
  let headers ← restore tr.headers
  let queries ← restore tr.queries
  some { tr with headers, queries }

def viewToPost (display : CaseObject Shown) : Option (CaseObject Fields) := do
  let trace ← display.trace.mapM restoreNode
  some { display with trace, validate := none }

/-! ### What comes back -/

/-- A value as the cases have it: no null, and no empty text. -/
def Scalar.Given (v : Scalar) : Prop := v ≠ .null ∧ v ≠ .str ""

def Scalar.isText : Scalar → Bool
  | str _ => true
  | _ => false

/-- Headers that are not there, or some, with proper names and values. -/
def InCase (m : Member Fields) : Prop :=
  m = .undefined ∨ ∃ fields : Fields, m = .value fields ∧ fields.entries ≠ [] ∧
    ∀ e ∈ fields.entries, e.1 ≠ "" ∧ e.1 ≠ "__proto__" ∧ e.2.Given

/-- All values are texts. -/
def OnlyTexts (m : Member Fields) : Prop :=
  ∀ fields, m = .value fields → ∀ e ∈ fields.entries, e.2.isText = true

/-- The same members, in any order. -/
def SameMember : Member Fields → Member Fields → Prop
  | .undefined, .undefined => True
  | .null, .null => True
  | .value a, .value b => ∀ k, a.lookup k = b.lookup k
  | _, _ => False

def SameNode (tr tr' : Node Fields) : Prop :=
  SameMember tr.headers tr'.headers ∧ SameMember tr.queries tr'.queries ∧ tr.others = tr'.others

def SameCase (p q : CaseObject Fields) : Prop :=
  List.Forall₂ SameNode p.trace q.trace ∧ p.validate = q.validate ∧ p.others = q.others

theorem keeps_given {name : String} {v : Scalar} (hname : name ≠ "") (hv : v.Given) :
    keeps ⟨name, v⟩ = v.isText := by
  unfold keeps
  rw [decide_eq_true hname, Bool.true_and]
  cases v with
  | null => exact absurd rfl hv.1
  | bool b => exact Bool.and_false _
  | int n => exact Bool.and_false _
  | dbl q => exact Bool.and_false _
  | str s =>
      have hs : s ≠ "" := fun hempty => hv.2 (by rw [hempty])
      have hlength : 0 < s.length := by
        rw [← String.length_toList]
        exact List.length_pos_of_ne_nil fun hnil => hs (String.toList_inj.mp hnil)
      show (decide (s ≠ "") && decide (0 < s.length)) = true
      rw [decide_eq_true hs, decide_eq_true hlength]
      rfl

/-- Of pairs with distinct names those are collected that are kept. -/
theorem lookup_collect {kvs : List Entry} (hnames : (kvs.map Entry.name).Nodup)
    (hproto : ∀ e ∈ kvs, e.name ≠ "__proto__") :
    (∀ e ∈ kvs, keeps e = true → (collect kvs).lookup e.name = some e.value) ∧
      ∀ k, (∀ e ∈ kvs, e.name = k → keeps e = false) → (collect kvs).lookup k = none := by
  have hput : ∀ (m : Fields) (e : Entry) (k : String), k ≠ e.name →
      (assign m e).lookup k = m.lookup k := by
    intro m e k hk
    unfold assign
    split
    · rfl
    · exact AList.lookup_insert_ne hk
  have hcollect : collect kvs = (kvs.filter keeps).foldl assign ∅ := List.foldl_filter.symm
  rw [hcollect]
  constructor
  · intro e he hkeeps
    refine StringMap.lookup_foldl_put Entry.name hput _ ∅ (hnames.sublist (List.filter_sublist.map _))
      (List.mem_filter.mpr ⟨he, hkeeps⟩) fun m => ?_
    unfold assign
    rw [if_neg (hproto e he)]
    exact AList.lookup_insert m
  · intro k hk
    rw [StringMap.lookup_foldl_put_ne Entry.name hput]
    · rfl
    · intro hmem
      obtain ⟨e, he, hname⟩ := List.mem_map.mp hmem
      obtain ⟨hmem, hkeeps⟩ := List.mem_filter.mp he
      rw [hk e hmem hname] at hkeeps
      cases hkeeps

section
variable {enumerate : Fields → List (Sigma fun _ : String => Scalar)}
  (henum : ∀ m, (enumerate m).Perm m.entries)
include henum

/-- The texts of a map come back, and nothing else. -/
theorem lookup_collect_enumerate {fields : Fields}
    (hfields : ∀ e ∈ fields.entries, e.1 ≠ "" ∧ e.1 ≠ "__proto__" ∧ e.2.Given) (k : String) :
    (collect ((enumerate fields).map fun e => (⟨e.1, e.2⟩ : Entry))).lookup k =
      (fields.lookup k).filter Scalar.isText := by
  have hnames : (((enumerate fields).map fun e => (⟨e.1, e.2⟩ : Entry)).map Entry.name).Nodup := by
    rw [List.map_map]
    exact ((henum fields).map Sigma.fst).nodup_iff.mpr fields.nodupKeys
  have hentry : ∀ e ∈ (enumerate fields).map fun e => (⟨e.1, e.2⟩ : Entry),
      ⟨e.name, e.value⟩ ∈ fields.entries := by
    intro e he
    obtain ⟨f, hf, rfl⟩ := List.mem_map.mp he
    exact (henum fields).mem_iff.mp hf
  have hkeeps : ∀ e ∈ (enumerate fields).map fun e => (⟨e.1, e.2⟩ : Entry),
      keeps e = e.value.isText := by
    intro e he
    obtain ⟨hname, -, hgiven⟩ := hfields _ (hentry e he)
    exact keeps_given hname hgiven
  obtain ⟨hkept, hdropped⟩ := lookup_collect hnames fun e he => (hfields _ (hentry e he)).2.1
  cases hk : fields.lookup k with
  | none =>
      refine hdropped k fun e he hname => ?_
      have hsome : fields.lookup e.name = some e.value := AList.mem_lookup_iff.mpr (hentry e he)
      rw [hname, hk] at hsome
      cases hsome
  | some v =>
      have hmem : (⟨k, v⟩ : Sigma fun _ : String => Scalar) ∈ fields.entries := AList.mem_lookup_iff.mp hk
      have hpair : (⟨k, v⟩ : Entry) ∈ (enumerate fields).map fun e => (⟨e.1, e.2⟩ : Entry) :=
        List.mem_map.mpr ⟨⟨k, v⟩, (henum fields).mem_iff.mpr hmem, rfl⟩
      cases htext : v.isText with
      | true =>
          rw [Option.filter_some, if_pos htext]
          exact hkept ⟨k, v⟩ hpair ((hkeeps _ hpair).trans htext)
      | false =>
          rw [Option.filter_some, if_neg (by rw [htext]; exact Bool.false_ne_true)]
          refine hdropped k fun e he hname => ?_
          have hsome : fields.lookup e.name = some e.value := AList.mem_lookup_iff.mpr (hentry e he)
          rw [hname, hk] at hsome
          rw [hkeeps e he, ← Option.some.inj hsome, htext]

/-- **One map**: what comes back is the same if and only if all values are texts. -/
theorem restore_objToArray {m : Member Fields} (hm : InCase m) :
    ∃ m', restore (objToArray enumerate m) = some m' ∧ (SameMember m' m ↔ OnlyTexts m) := by
  rcases hm with rfl | ⟨fields, rfl, hne, hfields⟩
  · refine ⟨.undefined, rfl, iff_of_true trivial ?_⟩
    intro fields hvalue
    cases hvalue
  · have hlength : 0 < ((enumerate fields).map fun e => (⟨e.1, e.2⟩ : Entry)).length := by
      rw [List.length_map, (henum fields).length_eq]
      exact List.length_pos_of_ne_nil hne
    have hlookup := lookup_collect_enumerate henum hfields
    have htexts : OnlyTexts (.value fields) ↔
        ∀ k, (collect ((enumerate fields).map fun e => (⟨e.1, e.2⟩ : Entry))).lookup k =
          fields.lookup k := by
      constructor
      · intro honly k
        rw [hlookup k]
        cases hk : fields.lookup k with
        | none => rfl
        | some v =>
            rw [Option.filter_some, if_pos (honly fields rfl ⟨k, v⟩ (AList.mem_lookup_iff.mp hk))]
      · rintro hsame _ hvalue e he
        cases hvalue
        have hk : fields.lookup e.1 = some e.2 := AList.mem_lookup_iff.mpr he
        have hfilter := (hlookup e.1).symm.trans (hsame e.1)
        rw [hk, Option.filter_some] at hfilter
        by_contra htext
        rw [if_neg htext] at hfilter
        cases hfilter
    unfold restore objToArray arrayToObj
    simp only [if_pos hlength, Option.map_some]
    by_cases hempty : (collect ((enumerate fields).map fun e => (⟨e.1, e.2⟩ : Entry))).entries = []
    · refine ⟨.undefined, by rw [if_pos hempty]; rfl, iff_of_false id ?_⟩
      rw [htexts]
      intro hsame
      obtain ⟨e, he⟩ := List.exists_mem_of_ne_nil _ hne
      have hk : fields.lookup e.1 = some e.2 := AList.mem_lookup_iff.mpr he
      have hmem := AList.mem_lookup_iff.mp ((hsame e.1).trans hk)
      rw [hempty] at hmem
      cases hmem
    · refine ⟨.value (collect ((enumerate fields).map fun e => (⟨e.1, e.2⟩ : Entry))),
        by rw [if_neg hempty]; rfl, ?_⟩
      exact htexts.symm

/-! ### Cases that come back -/

/-- A node of the form comes back as `tr'`, the same as `tr` if and only if that has only texts. -/
def ComesBack (shown : Node Shown) (tr : Node Fields) : Prop :=
  ∃ tr', restoreNode shown = some tr' ∧
    (SameNode tr' tr ↔ OnlyTexts tr.headers ∧ OnlyTexts tr.queries)

theorem comesBack_form {tr : Node Fields} (hheaders : InCase tr.headers) (hqueries : InCase tr.queries) :
    ComesBack { tr with
      headers := objToArray enumerate tr.headers, queries := objToArray enumerate tr.queries } tr := by
  obtain ⟨headers, hh, hsameHeaders⟩ := restore_objToArray henum hheaders
  obtain ⟨queries, hq, hsameQueries⟩ := restore_objToArray henum hqueries
  refine ⟨{ tr with headers := headers, queries := queries }, ?_, ?_⟩
  · simp only [restoreNode, hh, hq]
    rfl
  · unfold SameNode
    rw [hsameHeaders, hsameQueries, and_iff_left rfl]

omit henum in
theorem comesBack_asIs {tr : Node Fields} (hheaders : InCase tr.headers) (hqueries : InCase tr.queries)
    (hnone : (tr.headers.truthy || tr.queries.truthy) = false) :
    ComesBack { tr with headers := tr.headers.map .inl, queries := tr.queries.map .inl } tr := by
  rw [Bool.or_eq_false_iff] at hnone
  have hundefined : ∀ m : Member Fields, InCase m → m.truthy = false → m = .undefined := by
    rintro m (hm | ⟨fields, rfl, -⟩) htruthy
    · exact hm
    · cases htruthy
  have hh := hundefined _ hheaders hnone.1
  have hq := hundefined _ hqueries hnone.2
  refine ⟨{ tr with headers := .undefined, queries := .undefined }, ?_, ?_⟩
  · unfold restoreNode
    rw [hh, hq]
    rfl
  · unfold SameNode OnlyTexts
    rw [hh, hq]
    refine iff_of_true ⟨trivial, trivial, rfl⟩ ⟨?_, ?_⟩
    · intro fields hvalue
      cases hvalue
    · intro fields hvalue
      cases hvalue

omit henum in
theorem mapM_comesBack {view : Node Fields → Node Shown} : ∀ {trace : List (Node Fields)},
    (∀ tr ∈ trace, ComesBack (view tr) tr) →
      ∃ trace', (trace.map view).mapM restoreNode = some trace' ∧
        (List.Forall₂ SameNode trace' trace ↔
          ∀ tr ∈ trace, OnlyTexts tr.headers ∧ OnlyTexts tr.queries)
  | [], _ => ⟨[], rfl, iff_of_true List.Forall₂.nil fun _ htr => by cases htr⟩
  | tr :: trace, hback => by
      obtain ⟨hfirst, hrest⟩ := List.forall_mem_cons.mp hback
      obtain ⟨tr', htr', hsame⟩ := hfirst
      obtain ⟨trace', htrace', hsames⟩ := mapM_comesBack hrest
      refine ⟨tr' :: trace', ?_, ?_⟩
      · rw [List.map_cons, List.mapM_cons, htr', htrace']
        rfl
      · rw [List.forall₂_cons, hsame, hsames, List.forall_mem_cons]

/-- **The form** gives a case back as it was if and only if its headers and queries are texts. -/
theorem viewToPost_postToView_iff {p : CaseObject Fields} (hvalidate : p.validate = none)
    (htrace : ∀ tr ∈ p.trace, InCase tr.headers ∧ InCase tr.queries) :
    (∃ q, viewToPost (postToView enumerate p) = some q ∧ SameCase q p) ↔
      ∀ tr ∈ p.trace, OnlyTexts tr.headers ∧ OnlyTexts tr.queries := by
  obtain ⟨view, hview, hback⟩ : ∃ view : Node Fields → Node Shown,
      postToView enumerate p = { p with trace := p.trace.map view } ∧
        ∀ tr ∈ p.trace, ComesBack (view tr) tr := by
    unfold postToView
    split
    · exact ⟨_, rfl, fun tr htr => comesBack_form henum (htrace tr htr).1 (htrace tr htr).2⟩
    · rename_i hshort
      have hnone : ∀ tr ∈ p.trace, (tr.headers.truthy || tr.queries.truthy) = false := by
        intro tr htr
        by_contra hsome
        rw [Bool.not_eq_false] at hsome
        exact hshort (List.length_pos_of_mem (List.mem_filter.mpr ⟨htr, hsome⟩))
      exact ⟨_, rfl, fun tr htr => comesBack_asIs (htrace tr htr).1 (htrace tr htr).2 (hnone tr htr)⟩
  obtain ⟨trace', htrace', hsame⟩ := mapM_comesBack hback
  have hpost : viewToPost (postToView enumerate p) =
      some { trace := trace', validate := none, others := p.others } := by
    unfold viewToPost
    rw [hview]
    simp only [htrace']
    rfl
  rw [hpost, ← hsame]
  constructor
  · rintro ⟨q, hq, hcase⟩
    obtain rfl := Option.some.inj hq
    exact hcase.1
  · exact fun hnodes => ⟨_, rfl, hnodes, hvalidate.symm, rfl⟩

end

/-! ### A number as a header -/

/-- A case with one node, which has one header. -/
def oneHeader (value : Scalar) : CaseObject Fields where
  trace := [{ headers := .value (AList.singleton "retry" value), queries := .undefined, others := ∅ }]
  validate := none
  others := ∅

theorem oneHeader_inCase {value : Scalar} (hvalue : value.Given) :
    ∀ tr ∈ (oneHeader value).trace, InCase tr.headers ∧ InCase tr.queries := by
  intro tr htr
  rw [List.mem_singleton.mp htr]
  refine ⟨Or.inr ⟨_, rfl, List.cons_ne_nil _ _, fun e he => ?_⟩, Or.inl rfl⟩
  rw [List.mem_singleton.mp he]
  have hname : ("retry" : String) ≠ "" ∧ "retry" ≠ "__proto__" := by decide
  exact ⟨hname.1, hname.2, hvalue⟩

theorem viewToPost_postToView_iff_sample :
    (∃ q, viewToPost (postToView (fun m => m.entries) (oneHeader (.str "3"))) = some q ∧
      SameCase q (oneHeader (.str "3"))) ↔
        ∀ tr ∈ (oneHeader (.str "3")).trace, OnlyTexts tr.headers ∧ OnlyTexts tr.queries :=
  viewToPost_postToView_iff (fun m => List.Perm.refl m.entries) rfl
    (oneHeader_inCase ⟨by decide, by decide⟩)

/-- The number 3 is gone, and with it the headers of the node. -/
theorem viewToPost_loses_number :
    viewToPost (postToView (fun m => m.entries) (oneHeader (.int 3))) =
      some { oneHeader (.int 3) with trace := [{ headers := .undefined, queries := .undefined, others := ∅ }] } ∧
    ¬ ∀ p : CaseObject Fields, p.validate = none →
      (∀ tr ∈ p.trace, InCase tr.headers ∧ InCase tr.queries) →
        ∃ q, viewToPost (postToView (fun m => m.entries) p) = some q ∧ SameCase q p := by
  have hpost : viewToPost (postToView (fun m => m.entries) (oneHeader (.int 3))) =
      some { oneHeader (.int 3) with trace :=
        [{ headers := .undefined, queries := .undefined, others := ∅ }] } := by rfl
  refine ⟨hpost, fun hclaim => ?_⟩
  obtain ⟨q, hq, hcase⟩ := hclaim (oneHeader (.int 3)) rfl (oneHeader_inCase ⟨by decide, by decide⟩)
  obtain rfl := Option.some.inj (hpost.symm.trans hq)
  cases hcase.1 with
  | cons hnode _ => exact hnode.1

end Form

end Powerful
