import Mathlib
import Powerful.RequestCases

/-! # The cases of a set

The configuration has its cases twice: by set, and flattened by name.  `executeAll` takes the names
from the set and looks every one of them up in the flattened map, where a set that is loaded later
replaces the cases of its names.

`lookup_rawCases` says which case a name stands for, `executed` records the raw cases that the loop
executes, and `executeNames_raws` that the loop does what executing these one after the other does.
`executeAllOf_own_iff` says when these are the cases of the set. -/

namespace Powerful

variable {ρ : Type}

namespace StaticResources

/-! ### The flattened map -/

theorem lookup_foldl_putField (k : String) : ∀ {cs : List (String × Json)} (acc : List (String × Json)),
    (cs.map Prod.fst).Nodup →
      (cs.foldl (fun acc c => Json.putField c.1 c.2 acc) acc).lookup k = (cs.lookup k).or (acc.lookup k)
  | [], acc, _ => rfl
  | c :: cs, acc, hnodup => by
      rw [List.map_cons, List.nodup_cons] at hnodup
      rw [List.foldl_cons, lookup_foldl_putField k _ hnodup.2]
      by_cases hk : k = c.1
      · have hnone : cs.lookup k = none := Json.lookup_eq_none_of_notMem (hk ▸ hnodup.1)
        rw [hnone, hk, Json.lookup_putField_self, List.lookup_cons, beq_self_eq_true]
        rfl
      · rw [Json.lookup_putField_ne hk, List.lookup_cons, beq_false_of_ne hk]

/-- The cases of a name in the sets, in the order in which they are loaded. -/
def definitions (sets : List (String × List (String × Json))) (name : String) : List Json :=
  sets.filterMap fun set => set.2.lookup name

theorem lookup_foldl_sets (k : String) : ∀ {sets : List (String × List (String × Json))}
    (acc : List (String × Json)), (∀ set ∈ sets, (set.2.map Prod.fst).Nodup) →
      (sets.foldl (fun cases set => set.2.foldl (fun cases c => Json.putField c.1 c.2 cases) cases)
        acc).lookup k = (definitions sets k).getLast?.or (acc.lookup k)
  | [], acc, _ => rfl
  | set :: sets, acc, hnames => by
      obtain ⟨hset, hsets⟩ := List.forall_mem_cons.mp hnames
      rw [List.foldl_cons, lookup_foldl_sets k _ hsets, lookup_foldl_putField k acc hset]
      unfold definitions
      rw [List.filterMap_cons]
      cases set.2.lookup k with
      | none => rfl
      | some raw =>
          rw [List.getLast?_cons]
          cases (sets.filterMap fun set => set.2.lookup k).getLast? <;> rfl

/-- **Flattening**: a name stands for its last definition. -/
theorem lookup_rawCases (res : StaticResources)
    (hnames : ∀ set ∈ res.rawCaseSets.getD [], (set.2.map Prod.fst).Nodup) (name : String) :
    res.rawCases.lookup name = (definitions (res.rawCaseSets.getD []) name).getLast? := by
  unfold rawCases
  rw [lookup_foldl_sets name [] hnames]
  exact Option.or_none

end StaticResources

namespace RequestCaseApiController
variable (api : RequestCaseApiController ρ)

/-! ### The loop over the names -/

/-- A name and the raw case that it stands for. -/
def lookedUp (name : String) : String × Option Json :=
  (name, api.staticResources.rawCases.lookup name)

/-- The raw cases that the loop executes, each under its name. -/
def executed (params : Headers) : List String → World ρ → List (String × Option Json)
  | [], _ => []
  | name :: names, w => api.lookedUp name ::
      if (api.executeCase params name w).1.toOption.isSome then
        executed params names (api.executeCase params name w).2
      else []

/-- Execute raw cases one after the other and report on each under its name, until one throws. -/
def executeRaws (params : Headers) : List (String × Option Json) → Writer → World ρ →
    Except Exc Unit × Writer × World ρ
  | [], out, w => (.ok (), out, w)
  | c :: cs, out, w =>
      match api.executeRead params (StaticResources.readCase api.powerful.host c.2) w with
      | (.error e, w) => (.error e, { out with lines := out.lines ++ [.executing c.1] }, w)
      | (.ok outcome, w) => executeRaws params cs
          { out with lines := out.lines ++ .executing c.1 :: api.verdict c.1 outcome } w

/-- **The cases that the loop executes**: its run is theirs. -/
theorem executeNames_raws (params : Headers) : ∀ (names : List String) (out : Writer) (w : World ρ),
    api.executeNames params names out w = api.executeRaws params (api.executed params names w) out w
  | [], out, w => rfl
  | name :: names, out, w => by
      have hread : api.executeRead params
          (StaticResources.readCase api.powerful.host (api.lookedUp name).2) w =
            api.executeCase params name w := rfl
      rw [executeNames, executeDuringResponse_eq, executed, executeRaws, hread]
      cases hcase : api.executeCase params name w with
      | mk outcome w₁ =>
          cases outcome with
          | error e => rfl
          | ok outcome =>
              simp only [Except.toOption, Option.isSome_some, if_true]
              exact executeNames_raws params names _ w₁

/-- The writer is closed behind a loop that returns. -/
def andClose : Except Exc Unit × Writer × World ρ → Except Exc Unit × Writer × World ρ
  | (.ok (), out, w) => (.ok (), out.close, w)
  | (.error e, out, w) => (.error e, out, w)

def executeRawsAndClose (params : Headers) (cs : List (String × Option Json)) (w : World ρ) :
    Except Exc Unit × Writer × World ρ :=
  andClose (api.executeRaws params cs {} w)

theorem executeAllOf_raws (params : Headers) (w : World ρ)
    {sets : List (String × List (String × Json))} {set : String} {cases : List (String × Json)}
    (hsets : api.staticResources.rawCaseSets = some sets) (hset : sets.lookup set = some cases) :
    api.executeAllOf set params w =
      api.executeRawsAndClose params (api.executed params (cases.map Prod.fst) w) w := by
  unfold executeAllOf
  rw [hsets]
  simp only [hset, Option.getD_some]
  exact congrArg andClose (api.executeNames_raws params (cases.map Prod.fst) {} w)

theorem executed_prefix (params : Headers) : ∀ (names : List String) (w : World ρ),
    api.executed params names w <+: names.map api.lookedUp
  | [], _ => List.prefix_rfl
  | name :: names, w => by
      rw [executed, List.map_cons, List.prefix_cons_inj]
      split
      · exact executed_prefix params names _
      · exact List.nil_prefix

/-- No case throws but perhaps the last one. -/
def OnlyLastThrows (params : Headers) (names : List String) (w : World ρ) : Prop :=
  ∀ o ∈ (api.outcomes params names w).dropLast, ∃ r, o = .ok r

/-- Every name is reached if and only if no case throws before the last one. -/
theorem executed_eq_iff (params : Headers) : ∀ (names : List String) (w : World ρ),
    api.executed params names w = names.map api.lookedUp ↔ api.OnlyLastThrows params names w
  | [], _ => by simp [executed, OnlyLastThrows, outcomes]
  | [name], w => by simp [executed, OnlyLastThrows, outcomes]
  | name :: next :: names, w => by
      have ih := executed_eq_iff params (next :: names) (api.executeCase params name w).2
      have hlast : api.OnlyLastThrows params (name :: next :: names) w ↔
          (∃ r, (api.executeCase params name w).1 = .ok r) ∧
            api.OnlyLastThrows params (next :: names) (api.executeCase params name w).2 := by
        unfold OnlyLastThrows
        rw [outcomes, List.dropLast_cons_of_ne_nil (by simp [outcomes]), List.forall_mem_cons]
      rw [hlast, ← ih, executed, List.map_cons, List.cons_inj_right]
      cases hout : (api.executeCase params name w).1 with
      | error e =>
          simp only [Except.toOption]
          constructor
          · intro h
            cases h
          · rintro ⟨⟨r, hr⟩, -⟩
            cases hr
      | ok r =>
          simp only [Except.toOption, Option.isSome_some, if_true]
          exact ⟨fun h => ⟨⟨r, rfl⟩, h⟩, fun h => h.2⟩

/-- `/executeAll/{set}` executes, for each case name of the set, the case that the set defines. -/
def ExecutesOwn (params : Headers) (cases : List (String × Json)) (w : World ρ) : Prop :=
  api.executed params (cases.map Prod.fst) w = cases.map fun c => (c.1, some c.2)

theorem executesOwn_iff (params : Headers) (cases : List (String × Json)) (w : World ρ) :
    api.ExecutesOwn params cases w ↔
      (∀ c ∈ cases, api.staticResources.rawCases.lookup c.1 = some c.2) ∧
        api.OnlyLastThrows params (cases.map Prod.fst) w := by
  have hown : (cases.map Prod.fst).map api.lookedUp = cases.map (fun c => (c.1, some c.2)) ↔
      ∀ c ∈ cases, api.staticResources.rawCases.lookup c.1 = some c.2 := by
    rw [List.map_map, List.map_inj_left]
    simp [lookedUp]
  unfold ExecutesOwn
  rw [← hown, ← executed_eq_iff]
  constructor
  · intro h
    have hlength : (api.executed params (cases.map Prod.fst) w).length =
        ((cases.map Prod.fst).map api.lookedUp).length := by
      rw [h]
      simp
    have hall := (api.executed_prefix params (cases.map Prod.fst) w).eq_of_length hlength
    exact ⟨hall.symm.trans h, hall⟩
  · rintro ⟨hlooked, hall⟩
    exact hall.trans hlooked

/-- No set that is loaded behind defines a case of the name otherwise in the end. -/
def NotReplaced (behind : List (String × List (String × Json))) (cases : List (String × Json)) : Prop :=
  ∀ c ∈ cases, ∀ raw, (StaticResources.definitions behind c.1).getLast? = some raw → raw = c.2

/-- The last definition of a name in a set, if no later set has one. -/
theorem getLast?_definitions {before behind : List (String × List (String × Json))} {set : String}
    {cases : List (String × Json)} (hcases : (cases.map Prod.fst).Nodup) {c : String × Json}
    (hc : c ∈ cases) :
    (StaticResources.definitions (before ++ (set, cases) :: behind) c.1).getLast? =
      some ((StaticResources.definitions behind c.1).getLast?.getD c.2) := by
  unfold StaticResources.definitions
  rw [List.filterMap_append, List.filterMap_cons, Json.lookup_of_mem hcases hc, List.getLast?_append,
    List.getLast?_cons]
  rfl

/-- **A set runs its own cases** if and only if no later set replaces one of them and none of them
throws before the last one.  What the request executes are the cases that are recorded: it returns,
reports and leaves what executing these does. -/
theorem executeAllOf_own_iff (params : Headers) (w : World ρ)
    {before behind : List (String × List (String × Json))} {set : String} {cases : List (String × Json)}
    (hsets : api.staticResources.rawCaseSets = some (before ++ (set, cases) :: behind))
    (hset : set ∉ before.map Prod.fst)
    (hnames : ∀ s ∈ before ++ (set, cases) :: behind, (s.2.map Prod.fst).Nodup) :
    api.executeAllOf set params w =
      api.executeRawsAndClose params (api.executed params (cases.map Prod.fst) w) w ∧
    (api.ExecutesOwn params cases w ↔
      NotReplaced behind cases ∧ api.OnlyLastThrows params (cases.map Prod.fst) w) := by
  have hmem : (set, cases) ∈ before ++ (set, cases) :: behind := by simp
  constructor
  · have hlookup : (before ++ (set, cases) :: behind).lookup set = some cases := by
      have hnone : before.lookup set = none := List.lookup_eq_none_iff.mpr fun s hs => by
        simpa using fun heq : set = s.1 => hset (heq ▸ List.mem_map_of_mem hs)
      rw [List.lookup_append, hnone, List.lookup_cons_self]
      rfl
    exact api.executeAllOf_raws params w hsets hlookup
  · rw [executesOwn_iff]
    refine and_congr_left fun _ => forall₂_congr fun c hc => ?_
    have hsetsD : api.staticResources.rawCaseSets.getD [] = before ++ (set, cases) :: behind := by
      rw [hsets, Option.getD_some]
    rw [StaticResources.lookup_rawCases _ (hsetsD ▸ hnames), hsetsD,
      getLast?_definitions (hnames _ hmem) hc, Option.some.injEq]
    cases (StaticResources.definitions behind c.1).getLast? with
    | none => simp
    | some raw => simp

/-- Of two sets the second one has a case of the first one's, the same. -/
theorem executeAllOf_own_iff_sample :
    sampleApi.executeAllOf "first" ∅ { rand := () } =
      sampleApi.executeRawsAndClose ∅ (sampleApi.executed ∅ ["refused", "fine"] { rand := () })
        { rand := () } ∧
    (sampleApi.ExecutesOwn ∅ [("refused", .obj [("trace", .arr []), ("traceNodeTmpl", .str "ok"),
        ("expect", .bool true)]), ("fine", .obj [("trace", .arr []), ("traceNodeTmpl", .str "ok"),
        ("expect", .str "ok")])] { rand := () } ↔
      NotReplaced [("second", [("fine", .obj [("trace", .arr []), ("traceNodeTmpl", .str "ok"),
        ("expect", .str "ok")])])] [("refused", .obj [("trace", .arr []), ("traceNodeTmpl", .str "ok"),
        ("expect", .bool true)]), ("fine", .obj [("trace", .arr []), ("traceNodeTmpl", .str "ok"),
        ("expect", .str "ok")])] ∧ sampleApi.OnlyLastThrows ∅ ["refused", "fine"] { rand := () }) :=
  sampleApi.executeAllOf_own_iff ∅ { rand := () } (show sampleApi.staticResources.rawCaseSets =
    some ([] ++ _ :: _) from rfl) (by decide) (by decide)

/-- Two sets with a case of one name each; `sharedCase` is the case with the template `text`. -/
def sharedCase (text : String) : Json := .obj [("trace", .arr []), ("traceNodeTmpl", .str text)]

def sharedApi : RequestCaseApiController Unit :=
  { sampleApi with staticResources :=
      { rawCaseSets := some [("first", [("shared", sharedCase "one")]),
          ("second", [("shared", sharedCase "two")])]
        targetMapping := [] } }

/-- The first set executes the case of the second one. -/
theorem executeAllOf_other :
    sharedApi.executeAllOf "first" ∅ { rand := () } =
      sharedApi.executeRawsAndClose ∅ [("shared", some (sharedCase "two"))] { rand := () } ∧
    ¬ sharedApi.ExecutesOwn ∅ [("shared", sharedCase "one")] { rand := () } := by
  have hexecuted : sharedApi.executed ∅ ["shared"] { rand := () } =
      [("shared", some (sharedCase "two"))] := by
    rw [executed, executed, ite_self]
    rfl
  refine ⟨?_, fun h => ?_⟩
  · rw [← hexecuted]
    exact sharedApi.executeAllOf_raws ∅ _ rfl (show List.lookup "first" _ = _ from rfl)
  have hsame : [("shared", some (sharedCase "two"))] = [("shared", some (sharedCase "one"))] :=
    hexecuted.symm.trans h
  exact absurd hsame (by decide)

end RequestCaseApiController

end Powerful
