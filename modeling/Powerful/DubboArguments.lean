import Mathlib
import Powerful.DubboCalls

/-! # The two spellings of arguments

The arguments of a Dubbo call are the parts of its path behind the method, or one part that is a
JSON list.  The code joins the parts again and takes them for a list if the text begins and ends
like one.

`spellingsAgree_iff` says for which values both spellings mean the same call on every service:
when there are values, and the first and the last one are not both lists.  Without values the path
has one empty part; between two lists Jackson reads the first one and ignores what follows. -/

namespace Powerful

namespace DubboRemoteInvoker

/-! ### The texts of a call -/

variable (jackson : Jackson) (app service methodName : String)

/-- The values as parts of the path. -/
def slashCall (vs : List Json) : String :=
  "/".intercalate (app :: service :: methodName :: vs.map jackson.writeValueAsString)

def listText (vs : List Json) : String :=
  "[" ++ ",".intercalate (vs.map jackson.writeValueAsString) ++ "]"

/-- The values as one list. -/
def listCall (vs : List Json) : String :=
  "/".intercalate [app, service, methodName, listText jackson vs]

def IsList (v : Json) : Prop := ∃ ws, v = .arr ws

/-- Jackson on the texts of these values: a text begins and ends with brackets if it is that of a
list, a list is read with its elements, and behind a list the rest of the text is ignored.  An
`Object` is read as what was written. -/
structure Reads (vs : List Json) : Prop where
  nonempty : ∀ v ∈ vs, jackson.writeValueAsString v ≠ ""
  opens : ∀ v ∈ vs, startsWith (jackson.writeValueAsString v) "[" = true ↔ IsList v
  closes : ∀ v ∈ vs, (jackson.writeValueAsString v).toList.getLast? = some ']' ↔ IsList v
  list : jackson.readList (listText jackson vs) = .ok vs
  first : ∀ {ws us : List Json}, vs = .arr ws :: us →
    jackson.readList ("/".intercalate (vs.map jackson.writeValueAsString)) = .ok ws
  object : ∀ v, v ∈ vs ∨ (∃ ws us, vs = .arr ws :: us ∧ v ∈ ws) →
    jackson.readValue (jackson.writeValueAsString v) (.other "Object") = .ok (.value v)

/-- The arguments of a method: the instruction, and at the other parameters the values in order. -/
inductive Decoded : List JavaType → List Json → List DubboArg → Prop
  | nil : Decoded [] [] []
  | instruction {types : List JavaType} {vs : List Json} {args : List DubboArg} :
      Decoded types vs args → Decoded (.instruction :: types) vs (.instruction :: args)
  | value {type : JavaType} {types : List JavaType} {v : Json} {vs : List Json} {a : DubboArg}
      {args : List DubboArg} :
      type ≠ .instruction → unmarshalParam jackson (jackson.writeValueAsString v) type = .ok a →
        Decoded types vs args → Decoded (type :: types) (v :: vs) (a :: args)

/-- Methods of one name differ in the number of their parameters. -/
def DistinctCounts (clazz : List Method) : Prop :=
  clazz.Pairwise fun m m' => m.name = m'.name → m.paramCount ≠ m'.paramCount

/-- Both spellings name the same target, on every service: the method with as many parameters as
there are values, with the values decoded. -/
def SpellingsAgree (vs : List Json) : Prop :=
  ∀ inv : DubboRemoteInvoker, inv.jackson = jackson → (∀ c ∈ inv.fieldToClass, DistinctCounts c.2) →
    inv.invokeDubbo (some (slashCall jackson app service methodName vs)) =
      inv.invokeDubbo (some (listCall jackson app service methodName vs)) ∧
    ∀ field clazz method args, field = Gen.genFieldName (Gen.appNameToClassName app) service →
      inv.fieldToClass.lookup field = some clazz → inv.fields.lookup field = some true →
      method ∈ clazz → method.name = methodName → Decoded jackson method.parameterTypes vs args →
        inv.invokeDubbo (some (listCall jackson app service methodName vs)) =
          .ok ⟨field, method, args⟩

/-! ### Parts of a path -/

theorem head_intercalate (sep : List Char) (t : List Char) : ∀ ts : List (List Char),
    ∃ u, sep.intercalate (t :: ts) = t ++ u
  | [] => ⟨[], by rw [List.intercalate_singleton, List.append_nil]⟩
  | t' :: ts => ⟨sep ++ sep.intercalate (t' :: ts), by
      rw [List.intercalate_cons_cons, List.append_assoc]⟩

theorem last_intercalate (sep : List Char) (t : List Char) : ∀ ts : List (List Char),
    ∃ u, sep.intercalate (ts ++ [t]) = u ++ t
  | [] => ⟨[], by rw [List.nil_append, List.intercalate_singleton, List.nil_append]⟩
  | [t'] => ⟨t' ++ sep, by
      rw [List.singleton_append, List.intercalate_cons_cons, List.intercalate_singleton]⟩
  | t' :: t'' :: ts => by
      obtain ⟨u, hu⟩ := last_intercalate sep t (t'' :: ts)
      refine ⟨t' ++ sep ++ u, ?_⟩
      rw [List.cons_append] at hu ⊢
      rw [List.cons_append, List.intercalate_cons_cons, hu]
      simp only [List.append_assoc]

theorem notMem_joined {c : Char} {sep : List Char} (hsep : c ∉ sep) : ∀ {ts : List (List Char)},
    (∀ t ∈ ts, c ∉ t) → c ∉ sep.intercalate ts
  | [], _ => by
      intro hc
      cases hc
  | [t], h => by
      rw [List.intercalate_singleton]
      exact h t List.mem_cons_self
  | t :: t' :: ts, h => by
      obtain ⟨ht, hts⟩ := List.forall_mem_cons.mp h
      rw [List.intercalate_cons_cons, List.append_assoc, List.mem_append, List.mem_append, not_or, not_or]
      exact ⟨ht, hsep, notMem_joined hsep hts⟩

/-- A text that was joined from parts without slash is split into them. -/
theorem split_joined {parts : List String} {last : String} (hslash : ∀ t ∈ parts ++ [last], '/' ∉ t.toList)
    (hlast : last ≠ "") : split '/' ("/".intercalate (parts ++ [last])) = parts ++ [last] := by
  exact split_intercalate hslash hlast

/-! ### What is read -/

variable {jackson app service methodName} {vs : List Json}

section reads
variable (hreads : Reads jackson vs)
include hreads

/-- The texts are taken for one list if the first and the last value are lists. -/
theorem takenForList_iff {first last : Json} (hfirst : vs.head? = some first)
    (hlast : vs.getLast? = some last) :
    (startsWith ("/".intercalate (vs.map jackson.writeValueAsString)) "[" = true ∧
      ("/".intercalate (vs.map jackson.writeValueAsString)).toList.getLast? = some ']') ↔
        IsList first ∧ IsList last := by
  have hfirstMem : first ∈ vs := List.mem_of_head? hfirst
  have hlastMem : last ∈ vs := List.mem_of_getLast? hlast
  refine and_congr ?_ ?_
  · rw [← hreads.opens first hfirstMem]
    obtain ⟨us, rfl⟩ : ∃ us, vs = first :: us := by
      cases vs with
      | nil => cases hfirst
      | cons v us => exact ⟨us, by rw [Option.some.inj hfirst]⟩
    obtain ⟨u, hu⟩ := head_intercalate ['/'] (jackson.writeValueAsString first).toList
      ((us.map jackson.writeValueAsString).map String.toList)
    have hne : (jackson.writeValueAsString first).toList ≠ [] := fun hnil =>
      hreads.nonempty first hfirstMem (String.toList_inj.mp hnil)
    unfold startsWith
    rw [String.toList_intercalate, List.map_cons, List.map_cons]
    show (List.isPrefixOf ['['] (['/'].intercalate _) = true ↔ _)
    rw [hu]
    cases htext : (jackson.writeValueAsString first).toList with
    | nil => exact absurd htext hne
    | cons c cs => rfl
  · rw [← hreads.closes last hlastMem]
    obtain ⟨us, rfl⟩ : ∃ us, vs = us ++ [last] := List.getLast?_eq_some_iff.mp hlast
    obtain ⟨u, hu⟩ := last_intercalate ['/'] (jackson.writeValueAsString last).toList
      ((us.map jackson.writeValueAsString).map String.toList)
    have hne : (jackson.writeValueAsString last).toList ≠ [] := fun hnil =>
      hreads.nonempty last hlastMem (String.toList_inj.mp hnil)
    rw [String.toList_intercalate, List.map_append, List.map_append]
    show ((['/'].intercalate _).getLast? = some ']' ↔ _)
    rw [show List.map String.toList (List.map jackson.writeValueAsString [last]) =
      [(jackson.writeValueAsString last).toList] from rfl, hu, List.getLast?_append_of_ne_nil _ hne]

theorem paramTexts_list : paramTexts jackson (listText jackson vs) =
    .ok (vs.map jackson.writeValueAsString) := by
  have hlist : (listText jackson vs).toList =
      '[' :: (",".intercalate (vs.map jackson.writeValueAsString)).toList ++ [']'] := by
    unfold listText
    rw [String.toList_append, String.toList_append]
    rfl
  unfold paramTexts startsWith
  rw [hlist, if_pos ⟨rfl, List.getLast?_concat⟩, hreads.list]
  rfl

theorem paramTexts_slash (hslash : ∀ v ∈ vs, '/' ∉ (jackson.writeValueAsString v).toList)
    {first last : Json} (hfirst : vs.head? = some first) (hlast : vs.getLast? = some last)
    (hlists : ¬ (IsList first ∧ IsList last)) :
    paramTexts jackson ("/".intercalate (vs.map jackson.writeValueAsString)) =
      .ok (vs.map jackson.writeValueAsString) := by
  unfold paramTexts
  rw [if_neg (fun htaken => hlists ((takenForList_iff hreads hfirst hlast).mp htaken))]
  obtain ⟨us, rfl⟩ : ∃ us, vs = us ++ [last] := List.getLast?_eq_some_iff.mp hlast
  rw [List.map_append, List.map_singleton, split_joined ?_ (hreads.nonempty last (by simp))]
  intro t ht
  rw [← List.map_singleton, ← List.map_append] at ht
  obtain ⟨v, hv, rfl⟩ := List.mem_map.mp ht
  exact hslash v hv

end reads

/-- A call is split into its names and parameters, and these are joined again. -/
theorem invokeDubbo_joined (inv : DubboRemoteInvoker) {params : List String}
    (hslash : ∀ t ∈ app :: service :: methodName :: params, '/' ∉ t.toList)
    (hlast : ∀ t, (methodName :: params).getLast? = some t → t ≠ "") :
    inv.invokeDubbo (some ("/".intercalate (app :: service :: methodName :: params))) =
      (inv.fields.lookup (Gen.genFieldName (Gen.appNameToClassName app) service)).elim
        (.error (.other "NoSuchFieldException"
          (some (Gen.genFieldName (Gen.appNameToClassName app) service))))
        fun injected => inv.dynamicInvoke (Gen.genFieldName (Gen.appNameToClassName app) service)
          injected methodName ("/".intercalate params) := by
  obtain ⟨parts, last, hparts⟩ : ∃ parts last, app :: service :: methodName :: params = parts ++ [last] :=
    ⟨_, _, (List.dropLast_append_getLast (List.cons_ne_nil _ _)).symm⟩
  have hne : last ≠ "" := by
    refine hlast last ?_
    have hwhole : (app :: service :: methodName :: params).getLast? = some last := by
      rw [hparts, List.getLast?_concat]
    rwa [List.getLast?_cons_cons, List.getLast?_cons_cons] at hwhole
  have hsplit := split_joined (hparts ▸ hslash) hne
  rw [← hparts] at hsplit
  unfold invokeDubbo
  simp only [hsplit]
  cases inv.fields.lookup (Gen.genFieldName (Gen.appNameToClassName app) service) with
  | none => rfl
  | some injected => rfl

theorem find?_distinct {clazz : List Method} (hdistinct : DistinctCounts clazz) {method : Method}
    (hmem : method ∈ clazz) {params : List String} (haccepts : accepts methodName params method = true) :
    clazz.find? (accepts methodName params) = some method := by
  induction clazz with
  | nil => cases hmem
  | cons m clazz ih =>
      obtain ⟨hm, hclazz⟩ := List.pairwise_cons.mp hdistinct
      rcases List.mem_cons.mp hmem with rfl | hmem
      · exact List.find?_cons_of_pos haccepts
      · have hskip : ¬ accepts methodName params m = true := by
          intro hfirst
          unfold accepts at haccepts hfirst
          rw [Bool.and_eq_true, decide_eq_true_eq, decide_eq_true_eq] at haccepts hfirst
          exact hm method hmem (hfirst.1.trans haccepts.1.symm) (hfirst.2.trans haccepts.2.symm)
        rw [List.find?_cons_of_neg hskip]
        exact ih hclazz hmem

theorem arguments_decoded {types : List JavaType} {args : List DubboArg}
    (hdecoded : Decoded jackson types vs args) :
    arguments jackson types (vs.map jackson.writeValueAsString) = .ok args := by
  induction hdecoded with
  | nil => rfl
  | instruction _ ih =>
      rw [arguments, ih]
      rfl
  | value htype hvalue _ ih =>
      rw [List.map_cons, arguments, hvalue, ih]
      · rfl
      · exact htype

theorem paramCount_decoded {types : List JavaType} {args : List DubboArg}
    (hdecoded : Decoded jackson types vs args) : (types.filter (· ≠ .instruction)).length = vs.length := by
  induction hdecoded with
  | nil => rfl
  | instruction _ ih =>
      rw [List.filter_cons_of_neg (by decide)]
      exact ih
  | value htype _ _ ih =>
      rw [List.filter_cons_of_pos (by simpa using htype), List.length_cons, List.length_cons, ih]

/-- The method with as many parameters as there are values is called with the values decoded. -/
theorem dynamicInvoke_decoded {inv : DubboRemoteInvoker} {field paramsStr : String}
    {clazz : List Method} {method : Method} {args : List DubboArg} (hjackson : inv.jackson = jackson)
    (hparams : paramTexts jackson paramsStr = .ok (vs.map jackson.writeValueAsString))
    (hclazz : inv.fieldToClass.lookup field = some clazz) (hdistinct : DistinctCounts clazz)
    (hmethod : method ∈ clazz) (hname : method.name = methodName)
    (hdecoded : Decoded jackson method.parameterTypes vs args) :
    inv.dynamicInvoke field true methodName paramsStr = .ok ⟨field, method, args⟩ := by
  have haccepts : accepts methodName (vs.map jackson.writeValueAsString) method = true := by
    unfold accepts Method.paramCount
    rw [paramCount_decoded hdecoded, hname, List.length_map]
    simp
  unfold dynamicInvoke
  rw [hjackson, hparams]
  simp only [hclazz, bind, Except.bind, find?_distinct hdistinct hmethod haccepts,
    arguments_decoded hdecoded]
  rfl

/-! ### Where the spellings agree -/

theorem dynamicInvoke_congr (inv : DubboRemoteInvoker) (field : String) (injected : Bool)
    {s s' : String} (hparams : paramTexts inv.jackson s = paramTexts inv.jackson s') :
    inv.dynamicInvoke field injected methodName s = inv.dynamicInvoke field injected methodName s' := by
  unfold dynamicInvoke
  rw [hparams]

/-- A service with one method, which takes `n` objects. -/
def objectInvoker (jackson : Jackson) (field methodName : String) (n : ℕ) : DubboRemoteInvoker where
  jackson := jackson
  fieldToClass := [(field, [⟨methodName, List.replicate n (.other "Object")⟩])]
  fields := [(field, true)]
  remote := fun _ _ => (.ok .null, ∅)

theorem decoded_object : ∀ {vs : List Json},
    (∀ v ∈ vs, jackson.readValue (jackson.writeValueAsString v) (.other "Object") = .ok (.value v)) →
      Decoded jackson (List.replicate vs.length (.other "Object")) vs (vs.map .value)
  | [], _ => .nil
  | v :: vs, h => by
      obtain ⟨hv, hvs⟩ := List.forall_mem_cons.mp h
      refine .value (fun heq => by cases heq) ?_ (decoded_object hvs)
      rw [unmarshalParam, hv]

theorem dynamicInvoke_object {field s : String} {n : ℕ} {params : List String} {target : DubboTarget}
    (hparams : paramTexts jackson s = .ok params)
    (htarget : (objectInvoker jackson field methodName n).dynamicInvoke field true methodName s =
      .ok target) :
    n = params.length ∧ arguments jackson (List.replicate n (.other "Object")) params =
      .ok target.arguments := by
  have hclazz : (objectInvoker jackson field methodName n).fieldToClass.lookup field =
      some [⟨methodName, List.replicate n (.other "Object")⟩] := List.lookup_cons_self
  have hcount : (⟨methodName, List.replicate n (.other "Object")⟩ : Method).paramCount = n := by
    unfold Method.paramCount
    rw [List.filter_replicate_of_pos (by decide), List.length_replicate]
  unfold dynamicInvoke at htarget
  rw [show (objectInvoker jackson field methodName n).jackson = jackson from rfl, hparams] at htarget
  simp only [hclazz, bind, Except.bind, List.find?_singleton] at htarget
  by_cases hn : n = params.length
  · refine ⟨hn, ?_⟩
    have haccepts : accepts methodName params
        ⟨methodName, List.replicate n (.other "Object")⟩ = true := by
      unfold accepts
      rw [hcount, hn]
      simp
    rw [if_pos haccepts] at htarget
    simp only at htarget
    cases hargs : arguments jackson (List.replicate n (.other "Object")) params with
    | error e =>
        rw [hargs] at htarget
        cases htarget
    | ok args =>
        rw [hargs] at htarget
        cases htarget
        rfl
  · have hrefuses : ¬ accepts methodName params
        ⟨methodName, List.replicate n (.other "Object")⟩ = true := by
      unfold accepts
      rw [hcount]
      simp [hn]
    rw [if_neg hrefuses] at htarget
    cases htarget

section names
variable (happ : '/' ∉ app.toList) (hservice : '/' ∉ service.toList) (hmethod : '/' ∉ methodName.toList)
  (hvalues : ∀ v ∈ vs, '/' ∉ (jackson.writeValueAsString v).toList)
include happ hservice hmethod hvalues

theorem invokeDubbo_slashCall (hne : methodName ≠ "") (hreads : Reads jackson vs)
    (inv : DubboRemoteInvoker) :
    inv.invokeDubbo (some (slashCall jackson app service methodName vs)) =
      (inv.fields.lookup (Gen.genFieldName (Gen.appNameToClassName app) service)).elim
        (.error (.other "NoSuchFieldException"
          (some (Gen.genFieldName (Gen.appNameToClassName app) service))))
        fun injected => inv.dynamicInvoke (Gen.genFieldName (Gen.appNameToClassName app) service)
          injected methodName ("/".intercalate (vs.map jackson.writeValueAsString)) := by
  refine invokeDubbo_joined inv ?_ ?_
  · intro t ht
    simp only [List.mem_cons] at ht
    rcases ht with rfl | rfl | rfl | ht
    · exact happ
    · exact hservice
    · exact hmethod
    · obtain ⟨v, hv, rfl⟩ := List.mem_map.mp ht
      exact hvalues v hv
  · intro t ht
    rcases List.mem_cons.mp (List.mem_of_getLast? ht) with rfl | ht
    · exact hne
    · obtain ⟨v, hv, rfl⟩ := List.mem_map.mp ht
      exact hreads.nonempty v hv

theorem invokeDubbo_listCall (inv : DubboRemoteInvoker) :
    inv.invokeDubbo (some (listCall jackson app service methodName vs)) =
      (inv.fields.lookup (Gen.genFieldName (Gen.appNameToClassName app) service)).elim
        (.error (.other "NoSuchFieldException"
          (some (Gen.genFieldName (Gen.appNameToClassName app) service))))
        fun injected => inv.dynamicInvoke (Gen.genFieldName (Gen.appNameToClassName app) service)
          injected methodName (listText jackson vs) := by
  have hlist : '/' ∉ (listText jackson vs).toList := by
    unfold listText
    rw [String.toList_append, String.toList_append, String.toList_intercalate, List.mem_append,
      List.mem_append, not_or, not_or]
    refine ⟨⟨by decide, notMem_joined (by decide) fun u hu => ?_⟩, by decide⟩
    obtain ⟨t, ht, rfl⟩ := List.mem_map.mp hu
    obtain ⟨v, hv, rfl⟩ := List.mem_map.mp ht
    exact hvalues v hv
  have hslash : ∀ t ∈ [app, service, methodName, listText jackson vs], '/' ∉ t.toList := by
    intro t ht
    simp only [List.mem_cons, List.not_mem_nil, or_false] at ht
    rcases ht with rfl | rfl | rfl | rfl
    · exact happ
    · exact hservice
    · exact hmethod
    · exact hlist
  have hlast : ∀ t, [methodName, listText jackson vs].getLast? = some t → t ≠ "" := by
    intro t ht hempty
    obtain rfl : listText jackson vs = t := Option.some.inj ht
    have hlength := congrArg String.length hempty
    unfold listText at hlength
    simp at hlength
  have hjoined := invokeDubbo_joined inv hslash hlast
  rw [String.intercalate_singleton] at hjoined
  exact hjoined

/-- On a service that takes objects the list spelling passes the values. -/
theorem object_listCall (hreads : Reads jackson vs)
    (hagree : SpellingsAgree jackson app service methodName vs) {params : List String}
    (hne : methodName ≠ "")
    (hparams : paramTexts jackson ("/".intercalate (vs.map jackson.writeValueAsString)) = .ok params) :
    vs.length = params.length ∧
      arguments jackson (List.replicate vs.length (.other "Object")) params = .ok (vs.map .value) := by
  obtain ⟨hsame, hlist⟩ := hagree
    (objectInvoker jackson (Gen.genFieldName (Gen.appNameToClassName app) service) methodName vs.length)
    rfl (by
      intro c hc
      rw [List.mem_singleton.mp hc]
      exact List.pairwise_singleton _ _)
  have hpassed := hlist _ _ _ _ rfl List.lookup_cons_self List.lookup_cons_self List.mem_cons_self rfl
    (decoded_object fun v hv => hreads.object v (Or.inl hv))
  rw [hpassed, invokeDubbo_slashCall happ hservice hmethod hvalues hne hreads] at hsame
  have hlookup : (objectInvoker jackson (Gen.genFieldName (Gen.appNameToClassName app) service)
      methodName vs.length).fields.lookup (Gen.genFieldName (Gen.appNameToClassName app) service) =
      some true := List.lookup_cons_self
  rw [hlookup] at hsame
  exact dynamicInvoke_object hparams hsame

/-- **The two spellings** of the arguments of a call agree on every service if and only if there
are values and the first and the last one are not both lists. -/
theorem spellingsAgree_iff (hne : methodName ≠ "") (hreads : Reads jackson vs) :
    SpellingsAgree jackson app service methodName vs ↔
      ∃ first last, vs.head? = some first ∧ vs.getLast? = some last ∧ ¬ (IsList first ∧ IsList last) := by
  constructor
  · intro hagree
    cases hvs : vs with
    | nil =>
        subst hvs
        have hcount := (object_listCall happ hservice hmethod hvalues hreads hagree hne
          (show paramTexts jackson ("/".intercalate []) = .ok [""] from rfl)).1
        cases hcount
    | cons first us =>
        obtain ⟨last, hlast⟩ : ∃ last, vs.getLast? = some last :=
          ⟨_, List.getLast?_eq_some_getLast (by rw [hvs]; exact List.cons_ne_nil _ _)⟩
        have hfirst : vs.head? = some first := by rw [hvs]; rfl
        refine ⟨first, last, rfl, hvs ▸ hlast, fun hlists => ?_⟩
        obtain ⟨ws, rfl⟩ := hlists.1
        have hparams : paramTexts jackson ("/".intercalate (vs.map jackson.writeValueAsString)) =
            .ok (ws.map jackson.writeValueAsString) := by
          unfold paramTexts
          rw [if_pos ((takenForList_iff hreads hfirst hlast).mpr hlists), hreads.first hvs]
          rfl
        obtain ⟨hcount, hargs⟩ := object_listCall happ hservice hmethod hvalues hreads hagree hne hparams
        have hobjects := decoded_object fun w (hw : w ∈ ws) =>
          hreads.object w (Or.inr ⟨ws, us, hvs, hw⟩)
        have helements := arguments_decoded hobjects
        rw [List.length_map] at hcount
        rw [hcount, helements, Except.ok.injEq] at hargs
        -- the elements of the first value would be all the values, that value among them
        have hsame : ws = vs := List.map_injective_iff.mpr (fun a b hab => DubboArg.value.inj hab) hargs
        have hmem : Json.arr ws ∈ vs := by
          rw [hvs]
          exact List.mem_cons_self
        rw [← hsame] at hmem
        have hsize := List.sizeOf_lt_of_mem hmem
        simp at hsize
  · rintro ⟨first, last, hfirst, hlast, hlists⟩ inv hjackson hdistinct
    have hslashTexts := paramTexts_slash hreads hvalues hfirst hlast hlists
    have hlistTexts := paramTexts_list hreads
    constructor
    · rw [invokeDubbo_slashCall happ hservice hmethod hvalues hne hreads,
        invokeDubbo_listCall happ hservice hmethod hvalues]
      cases inv.fields.lookup (Gen.genFieldName (Gen.appNameToClassName app) service) with
      | none => rfl
      | some injected =>
          refine dynamicInvoke_congr inv _ injected ?_
          rw [hjackson, hslashTexts, hlistTexts]
    · intro field clazz method args hfield hclazz hinjected hmethodMem hname hdecoded
      subst hfield
      rw [invokeDubbo_listCall happ hservice hmethod hvalues, hinjected, Option.elim_some]
      obtain ⟨before, behind, hclasses, -⟩ := List.lookup_eq_some_iff.mp hclazz
      have hclass := hdistinct (Gen.genFieldName (Gen.appNameToClassName app) service, clazz)
        (by rw [hclasses]; simp)
      exact dynamicInvoke_decoded hjackson hlistTexts hclazz hclass hmethodMem hname hdecoded

end names

/-! ### Lists at both ends -/

/-- Numbers and lists of numbers. -/
def numberText : Json → String
  | .int n => toString n
  | _ => ""

def sampleText : Json → String
  | .arr vs => "[" ++ ",".intercalate (vs.map numberText) ++ "]"
  | v => numberText v

def sampleJackson : Jackson where
  readList s :=
    if s = "[]" then .ok []
    else if s = "[2]" then .ok [.int 2]
    else if s = "[[2]]" then .ok [.arr [.int 2]]
    else if s = "[1,[2]]" then .ok [.int 1, .arr [.int 2]]
    else .error (.other "JsonParseException" none)
  writeValueAsString := sampleText
  readValue s _ :=
    if s = "1" then .ok (.value (.int 1))
    else if s = "2" then .ok (.value (.int 2))
    else if s = "[2]" then .ok (.value (.arr [.int 2]))
    else .error "JsonParseException"

theorem not_isList_int (n : ℤ) : ¬ IsList (.int n) := by
  rintro ⟨ws, hws⟩
  cases hws

theorem sampleJackson_reads : Reads sampleJackson [.int 1, .arr [.int 2]] where
  nonempty := List.forall_mem_cons.mpr ⟨by decide, List.forall_mem_singleton.mpr (by decide)⟩
  opens := List.forall_mem_cons.mpr ⟨iff_of_false (by decide) (not_isList_int 1),
    List.forall_mem_singleton.mpr (iff_of_true (by decide) ⟨_, rfl⟩)⟩
  closes := List.forall_mem_cons.mpr ⟨iff_of_false (by decide) (not_isList_int 1),
    List.forall_mem_singleton.mpr (iff_of_true (by decide) ⟨_, rfl⟩)⟩
  list := by rfl
  first := by
    rintro ws us hvs
    cases hvs
  object := by
    rintro v (hv | ⟨ws, us, hvs, -⟩)
    · simp only [List.mem_cons, List.not_mem_nil, or_false] at hv
      rcases hv with rfl | rfl
      · rfl
      · rfl
    · cases hvs

/-- A number and a list: `1/[2]` and `[1,[2]]`. -/
theorem spellingsAgree_iff_sample :
    SpellingsAgree sampleJackson "b" "echo" "echo" [.int 1, .arr [.int 2]] ↔
      ∃ first last, [Json.int 1, .arr [.int 2]].head? = some first ∧
        [Json.int 1, .arr [.int 2]].getLast? = some last ∧ ¬ (IsList first ∧ IsList last) :=
  spellingsAgree_iff (by decide) (by decide) (by decide)
    (List.forall_mem_cons.mpr ⟨by decide, List.forall_mem_singleton.mpr (by decide)⟩) (by decide)
    sampleJackson_reads

/-- Without values the path has one empty parameter.  A single list is taken for the list of the
values. -/
theorem spellings_differ :
    (objectInvoker sampleJackson "gen_dubboecho_b" "echo" 0).invokeDubbo
      (some (slashCall sampleJackson "b" "echo" "echo" [])) =
        .error (.other "NoSuchElementException" (some "No value present")) ∧
    (objectInvoker sampleJackson "gen_dubboecho_b" "echo" 0).invokeDubbo
      (some (listCall sampleJackson "b" "echo" "echo" [])) =
        .ok ⟨"gen_dubboecho_b", ⟨"echo", []⟩, []⟩ ∧
    (objectInvoker sampleJackson "gen_dubboecho_b" "echo" 1).invokeDubbo
      (some (slashCall sampleJackson "b" "echo" "echo" [.arr [.int 2]])) =
        .ok ⟨"gen_dubboecho_b", ⟨"echo", [.other "Object"]⟩, [.value (.int 2)]⟩ ∧
    (objectInvoker sampleJackson "gen_dubboecho_b" "echo" 1).invokeDubbo
      (some (listCall sampleJackson "b" "echo" "echo" [.arr [.int 2]])) =
        .ok ⟨"gen_dubboecho_b", ⟨"echo", [.other "Object"]⟩, [.value (.arr [.int 2])]⟩ ∧
    ¬ ∀ vs : List Json, (∀ v ∈ vs, '/' ∉ (sampleJackson.writeValueAsString v).toList) →
      Reads sampleJackson vs → SpellingsAgree sampleJackson "b" "echo" "echo" vs := by
  have hslash : (objectInvoker sampleJackson "gen_dubboecho_b" "echo" 0).invokeDubbo
      (some (slashCall sampleJackson "b" "echo" "echo" [])) =
        .error (.other "NoSuchElementException" (some "No value present")) := by rfl
  have hlist : (objectInvoker sampleJackson "gen_dubboecho_b" "echo" 0).invokeDubbo
      (some (listCall sampleJackson "b" "echo" "echo" [])) =
        .ok ⟨"gen_dubboecho_b", ⟨"echo", []⟩, []⟩ := by rfl
  refine ⟨hslash, hlist, by rfl, by rfl, fun hclaim => ?_⟩
  have hreads : Reads sampleJackson [] :=
    { nonempty := fun v hv => by cases hv
      opens := fun v hv => by cases hv
      closes := fun v hv => by cases hv
      list := by rfl
      first := fun hvs => by cases hvs
      object := by
        rintro v (hv | ⟨ws, us, hvs, -⟩)
        · cases hv
        · cases hvs }
  have hsame := (hclaim [] (fun v hv => by cases hv) hreads
    (objectInvoker sampleJackson "gen_dubboecho_b" "echo" 0) rfl fun c hc => by
      rw [List.mem_singleton.mp hc]
      exact List.pairwise_singleton _ _).1
  rw [hslash, hlist] at hsame
  cases hsame

end DubboRemoteInvoker

end Powerful
