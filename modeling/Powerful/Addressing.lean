import Mathlib
import Powerful.Http
import Powerful.QueryString

/-! # The address of an HTTP request

`HttpRemoteInvoker` writes the address of a request as one text: the call, `/execute`, and
behind a `?` the keys and rendered values of the queries as they are.  `target` and
`requestParams` say what the network and the container of the callee read from it.

`addressed_iff` says for which calls and queries they read what the call and the queries name,
whatever the values are: never for a call with the scheme `https`, and only for keys and values
without the characters that a URL reserves. -/

namespace Powerful

open QueryString

variable {ρ : Type}

/-! ### Calls and targets -/

inductive Scheme where
  | http
  | https
deriving DecidableEq

def Scheme.name : Scheme → List Char
  | http => "http".toList
  | https => "https".toList

/-- Scheme, authority and path of a URL. -/
structure Target where
  scheme : List Char
  authority : List Char
  path : List Char

def Target.text (t : Target) : List Char := t.scheme ++ "://".toList ++ t.authority ++ t.path

/-- The parts are told apart in the text. -/
structure Target.WellFormed (t : Target) : Prop where
  scheme : ':' ∉ t.scheme
  authority : '/' ∉ t.authority
  path : t.path = [] ∨ t.path.head? = some '/'

/-- What precedes the query and the fragment of a URL. -/
def addressOf (url : String) : List Char := url.toList.takeWhile fun c => c ≠ '?' ∧ c ≠ '#'

/-- Where a URL points to, if it has an authority. -/
def target (url : String) : Option Target :=
  match (addressOf url).dropWhile (· ≠ ':') with
  | ':' :: '/' :: '/' :: r => some
      { scheme := (addressOf url).takeWhile (· ≠ ':')
        authority := r.takeWhile (· ≠ '/')
        path := r.dropWhile (· ≠ '/') }
  | _ => none

/-- A call of the form `[http://|https://]authority[/path]`; one without scheme does not begin
with one. -/
structure Call where
  scheme : Option Scheme
  authority : List Char
  path : List Char
  authority_ne_nil : authority ≠ []
  authority_plain : ∀ c ∈ authority, c ∉ ['/', '?', '#']
  path_head : path = [] ∨ path.head? = some '/'
  path_plain : ∀ c ∈ path, c ∉ ['?', '#']
  bare : scheme = none → ∀ s : Scheme, ¬ (s.name ++ "://".toList).isPrefixOf (authority ++ path)

def Call.text (call : Call) : String :=
  String.ofList ((call.scheme.elim [] fun s => s.name ++ "://".toList) ++ call.authority ++ call.path)

/-- The target that the call names, `http` if it names no scheme. -/
def Call.target (call : Call) : Target where
  scheme := (call.scheme.getD .http).name
  authority := call.authority
  path := call.path ++ "/execute".toList

theorem Call.target_wellFormed (call : Call) : call.target.WellFormed := by
  constructor
  · intro h
    cases hs : call.scheme.getD .http with
    | http => simp [Call.target, hs, Scheme.name] at h
    | https => simp [Call.target, hs, Scheme.name] at h
  · intro h
    exact call.authority_plain _ h (by decide)
  · refine Or.inr ?_
    rcases call.path_head with h | h
    · simp [Call.target, h]
    · simp [Call.target, List.head?_append, h]

/-- Reading a target and writing it are inverse. -/
theorem target_eq_some_iff {url : String} {t : Target} (ht : t.WellFormed) :
    target url = some t ↔ addressOf url = t.text := by
  obtain ⟨scheme, authority, path⟩ := t
  obtain ⟨hscheme, hauthority, hpath⟩ := ht
  simp only at hscheme hauthority hpath
  constructor
  · intro h
    unfold target at h
    split at h
    · rename_i r hr
      obtain ⟨hs, ha, hp⟩ := Target.mk.inj (Option.some.inj h)
      unfold Target.text
      simp only
      calc addressOf url
          = (addressOf url).takeWhile (· ≠ ':') ++ (addressOf url).dropWhile (· ≠ ':') :=
            List.takeWhile_append_dropWhile.symm
        _ = scheme ++ ':' :: '/' :: '/' :: (r.takeWhile (· ≠ '/') ++ r.dropWhile (· ≠ '/')) := by
            rw [hs, hr, List.takeWhile_append_dropWhile]
        _ = scheme ++ "://".toList ++ authority ++ path := by
            rw [ha, hp]
            simp
    · cases h
  · intro h
    have hs : ∀ c ∈ scheme, (decide (c ≠ ':')) = true := fun c hc => by
      simpa using fun heq : c = ':' => hscheme (heq ▸ hc)
    have ha : ∀ c ∈ authority, (decide (c ≠ '/')) = true := fun c hc => by
      simpa using fun heq : c = '/' => hauthority (heq ▸ hc)
    have htext : addressOf url = scheme ++ ':' :: '/' :: '/' :: (authority ++ path) := by
      rw [h]
      simp [Target.text]
    have hrest : path.takeWhile (· ≠ '/') = [] ∧ path.dropWhile (· ≠ '/') = path := by
      rcases hpath with rfl | hhead
      · exact ⟨rfl, rfl⟩
      · cases path with
        | nil => cases hhead
        | cons c path =>
            obtain rfl := Option.some.inj hhead
            exact ⟨by simp, by simp⟩
    unfold target
    rw [htext, List.dropWhile_append_of_pos hs, List.takeWhile_append_of_pos hs,
      List.dropWhile_cons_of_neg (by decide), List.takeWhile_cons_of_neg (by decide)]
    simp only
    rw [List.takeWhile_append_of_pos ha, List.dropWhile_append_of_pos ha, hrest.1, hrest.2]
    simp

/-! ### Request parameters -/

/-- A map from names to values; the first value of a name counts. -/
def paramMap (ps : List (String × String)) : Headers :=
  ps.foldr (fun p m => m.insert p.1 (some p.2)) ∅

/-- What stands between the `?` and the `#` of a URL. -/
def queryOf (url : String) : List Char :=
  ((url.toList.takeWhile (· ≠ '#')).dropWhile (· ≠ '?')).tail

/-- The parameters that a servlet container reads from a URL. -/
def requestParams (charset : Charset) (url : String) : Headers :=
  paramMap ((formPairs charset (queryOf url)).map fun p => (String.ofList p.1, String.ofList p.2))

/-- `URI.create` accepts a query behind an address if it accepts the address and the query is
legal. -/
def Http.ParsesUris (http : Http) : Prop :=
  ∀ base query : String, '?' ∉ base.toList → '#' ∉ base.toList →
    http.uri (base ++ "/execute" ++ "?" ++ query) =
      (http.uri (base ++ "/execute") && queryLegal query.toList)

theorem lookup_paramMap_append (ps qs : List (String × String)) (k : String) :
    (paramMap (ps ++ qs)).lookup k = ((paramMap ps).lookup k).or ((paramMap qs).lookup k) := by
  induction ps with
  | nil => rfl
  | cons p ps ih =>
      unfold paramMap at ih ⊢
      rw [List.cons_append, List.foldr_cons, List.foldr_cons]
      by_cases hk : k = p.1
      · rw [hk, AList.lookup_insert, AList.lookup_insert]
        rfl
      · rw [AList.lookup_insert_ne hk, AList.lookup_insert_ne hk, ih]

theorem mem_of_lookup_paramMap {ps : List (String × String)} {k : String} {value : Option String}
    (h : (paramMap ps).lookup k = some value) : ∃ t, value = some t ∧ (k, t) ∈ ps := by
  induction ps with
  | nil => cases h
  | cons p ps ih =>
      unfold paramMap at h ih
      rw [List.foldr_cons] at h
      by_cases hk : k = p.1
      · rw [hk, AList.lookup_insert] at h
        refine ⟨p.2, (Option.some.inj h).symm, ?_⟩
        rw [hk]
        exact List.mem_cons_self
      · rw [AList.lookup_insert_ne hk] at h
        obtain ⟨t, ht, hmem⟩ := ih h
        exact ⟨t, ht, List.mem_cons_of_mem p hmem⟩

theorem lookup_paramMap_of_mem {ps : List (String × String)} (hkeys : (ps.map Prod.fst).Nodup)
    {p : String × String} (hp : p ∈ ps) : (paramMap ps).lookup p.1 = some (some p.2) := by
  induction ps with
  | nil => cases hp
  | cons q ps ih =>
      rw [List.map_cons, List.nodup_cons] at hkeys
      unfold paramMap at ih ⊢
      rw [List.foldr_cons]
      rcases List.mem_cons.mp hp with rfl | hp
      · exact AList.lookup_insert _
      · have hne : p.1 ≠ q.1 := fun heq => hkeys.1 (heq ▸ List.mem_map_of_mem hp)
        rw [AList.lookup_insert_ne hne]
        exact ih hkeys.2 hp

namespace HttpRemoteInvoker
variable (h : Host ρ) (http : Http)

/-- The keys of the queries with the rendered values. -/
def renderPairs (v : View) : List (Sigma fun _ : String => Option String) → ρ →
    Except Exc (List (String × String)) × ρ
  | [], r => (.ok [], r)
  | e :: es, r => match renderNullable h v e.2 r with
    | (.error e, r) => (.error e, r)
    | (.ok value, r) => match renderPairs v es r with
      | (.error e, r) => (.error e, r)
      | (.ok pairs, r) => (.ok ((e.1, orNull value) :: pairs), r)

def paramText (p : String × String) : String := p.1 ++ "=" ++ p.2

theorem renderQueries_eq (v : View) : ∀ (es : List (Sigma fun _ : String => Option String)) (r : ρ),
    renderQueries h v es r =
      ((renderPairs h v es r).1.map (List.map paramText), (renderPairs h v es r).2)
  | [], r => rfl
  | e :: es, r => by
      unfold renderQueries renderPairs
      cases renderNullable h v e.2 r with
      | mk out r₁ =>
          cases out with
          | error e => rfl
          | ok value =>
              simp only
              rw [renderQueries_eq v es r₁]
              cases renderPairs h v es r₁ with
              | mk out r₂ => cases out with
                | error e => rfl
                | ok rest => rfl

theorem renderPairs_keys {v : View} : ∀ {es : List (Sigma fun _ : String => Option String)} {r r' : ρ}
    {pairs : List (String × String)}, renderPairs h v es r = (.ok pairs, r') →
      pairs.map Prod.fst = es.map Sigma.fst
  | [], r, r', pairs, hpairs => by
      obtain ⟨hnil, -⟩ := Prod.mk.inj hpairs
      obtain rfl := Except.ok.inj hnil
      rfl
  | e :: es, r, r', pairs, hpairs => by
      unfold renderPairs at hpairs
      cases hvalue : renderNullable h v e.2 r with
      | mk out r₁ =>
          rw [hvalue] at hpairs
          cases out with
          | error e => cases hpairs
          | ok value =>
              simp only at hpairs
              cases hrest : renderPairs h v es r₁ with
              | mk out r₂ =>
                  rw [hrest] at hpairs
                  cases out with
                  | error e => cases hpairs
                  | ok rest =>
                      simp only at hpairs
                      obtain ⟨hok, -⟩ := Prod.mk.inj hpairs
                      obtain rfl := Except.ok.inj hok
                      rw [List.map_cons, List.map_cons, renderPairs_keys hrest]

/-- The queries of the node render to these pairs. -/
def Renders (v : View) (r : ρ) (node : PowerTraceNode) (pairs : List (String × String)) : Prop :=
  ∃ own queries r', node.headers = some own ∧ node.queries = some queries ∧
    renderPairs h v queries.entries r = (.ok pairs, r')

/-- Nothing but the values of the queries keeps the request from being sent. -/
structure Sendable (i : Instruction) (node : PowerTraceNode) (pairs : List (String × String)) :
    Prop where
  carried : ∃ carried, carry h http i node.method [] = .ok carried
  logged : Powerful.logged h http.arrays i = .ok ()
  accepted : http.uri (withQuery (baseUrl node) (pairs.map fun p => p.1 ++ "=")) = true

/-- What the text of the address keeps apart. -/
structure Writable (call : Call) (pairs : List (String × String)) : Prop where
  scheme : call.scheme ≠ some .https
  bare : call.scheme = none → startsWith (call.text ++ "/execute") "http:" = false
  keys : ∀ p ∈ pairs, p.1 ≠ "_body" ∧ ∀ c ∈ p.1.toList, c ∉ ['&', '=', '+', '%', '#']
  values : ∀ p ∈ pairs, ∀ c ∈ p.2.toList, uric c = true ∧ c ∉ ['&', '+', '%', '#']

/-- A request goes to the target of the call with the rendered queries, and no value keeps it
from being sent. -/
structure Addressed (charset : Charset) (call : Call) (i : Instruction) (node : PowerTraceNode)
    (v : View) (r : ρ) : Prop where
  sent : ∀ req r', request h http i v r = (.ok req, r') → target req.url = some call.target ∧
    ∃ pairs, Renders h v r node pairs ∧
      ∀ k, ((requestParams charset req.url).erase "_body").lookup k = (paramMap pairs).lookup k
  accepted : ∀ pairs, Renders h v r node pairs → Sendable h http i node pairs →
    ∃ req r', request h http i v r = (.ok req, r')

/-! ### The text of the address -/

theorem withQuery_toList (base : String) (params : List String) :
    (withQuery base params).toList = base.toList ++
      if params = [] then [] else '?' :: List.intercalate ['&'] (params.map String.toList) := by
  unfold withQuery
  by_cases hparams : params = []
  · rw [if_pos hparams, if_pos hparams, List.append_nil]
  · rw [if_neg hparams, if_neg hparams, String.toList_append, String.toList_append,
      String.toList_intercalate, List.append_assoc]
    rfl

theorem addressOf_withQuery {base : String} (hbase : '?' ∉ base.toList ∧ '#' ∉ base.toList)
    (params : List String) : addressOf (withQuery base params) = base.toList := by
  have hall : ∀ c ∈ base.toList, decide (c ≠ '?' ∧ c ≠ '#') = true := by
    intro c hc
    simp only [decide_eq_true_eq]
    exact ⟨fun heq => hbase.1 (heq ▸ hc), fun heq => hbase.2 (heq ▸ hc)⟩
  unfold addressOf
  rw [withQuery_toList, List.takeWhile_append_of_pos hall]
  split
  · exact List.append_nil _
  · rw [List.takeWhile_cons_of_neg (by decide), List.append_nil]

theorem queryOf_withQuery {base : String} (hbase : '?' ∉ base.toList ∧ '#' ∉ base.toList)
    (params : List String) : queryOf (withQuery base params) = joined (params.map String.toList) := by
  have hhash : ∀ c ∈ base.toList, decide (c ≠ '#') = true := fun c hc => by
    simpa using fun heq : c = '#' => hbase.2 (heq ▸ hc)
  have hquery : ∀ c ∈ base.toList, decide (c ≠ '?') = true := fun c hc => by
    simpa using fun heq : c = '?' => hbase.1 (heq ▸ hc)
  unfold queryOf
  rw [withQuery_toList, List.takeWhile_append_of_pos hhash, List.dropWhile_append_of_pos hquery]
  split
  · rename_i hparams
    rw [hparams]
    rfl
  · rw [List.takeWhile_cons_of_pos (by decide), List.dropWhile_cons_of_neg (by decide), List.tail_cons]
    rfl

theorem call_text_toList (call : Call) : call.text.toList =
    (call.scheme.elim [] fun s => s.name ++ "://".toList) ++ call.authority ++ call.path :=
  String.toList_ofList

theorem call_text_plain (call : Call) : '?' ∉ call.text.toList ∧ '#' ∉ call.text.toList := by
  have hall : ∀ c ∈ ['?', '#'], c ∉ call.text.toList := by
    intro c hc hmem
    rw [call_text_toList, List.mem_append, List.mem_append] at hmem
    rcases hmem with (hmem | hmem) | hmem
    · cases hs : call.scheme with
      | none => simp [hs] at hmem
      | some s =>
          rw [hs] at hmem
          fin_cases hc <;> cases s <;> exact absurd hmem (by decide)
    · exact call.authority_plain c hmem (List.mem_cons_of_mem _ hc)
    · exact call.path_plain c hmem hc
  exact ⟨hall _ (by decide), hall _ (by decide)⟩

section
variable {call : Call} {node : PowerTraceNode} (hcall : node.call = some call.text)
include hcall

theorem baseUrl_of_call : baseUrl node = if startsWith (call.text ++ "/execute") "http:" then
    call.text ++ "/execute" else "http://" ++ (call.text ++ "/execute") := by
  unfold baseUrl
  rw [hcall]
  rfl

/-- The address ends with `/execute` and contains no query. -/
theorem baseUrl_eq : ∃ base, baseUrl node = base ++ "/execute" ∧
    ('?' ∉ base.toList ∧ '#' ∉ base.toList) := by
  obtain ⟨hquery, hhash⟩ := call_text_plain call
  rw [baseUrl_of_call hcall]
  split
  · exact ⟨call.text, rfl, hquery, hhash⟩
  · refine ⟨"http://" ++ call.text, (String.append_assoc ..).symm, ?_, ?_⟩
    · rw [String.toList_append, List.mem_append]
      exact not_or.mpr ⟨by decide, hquery⟩
    · rw [String.toList_append, List.mem_append]
      exact not_or.mpr ⟨by decide, hhash⟩

theorem baseUrl_plain : '?' ∉ (baseUrl node).toList ∧ '#' ∉ (baseUrl node).toList := by
  obtain ⟨base, heq, hquery, hhash⟩ := baseUrl_eq hcall
  rw [heq, String.toList_append, List.mem_append, List.mem_append]
  exact ⟨not_or.mpr ⟨hquery, by decide⟩, not_or.mpr ⟨hhash, by decide⟩⟩

/-- The address is that of the call if and only if its scheme is understood. -/
theorem target_iff (params : List String) :
    target (withQuery (baseUrl node) params) = some call.target ↔ call.scheme ≠ some .https ∧
      (call.scheme = none → startsWith (call.text ++ "/execute") "http:" = false) := by
  rw [target_eq_some_iff call.target_wellFormed, addressOf_withQuery (baseUrl_plain hcall)]
  have htext : call.target.text = (call.scheme.getD .http).name ++ "://".toList ++ call.authority ++
      (call.path ++ "/execute".toList) := rfl
  rw [baseUrl_of_call hcall, htext]
  cases hs : call.scheme with
  | none =>
      have hcalltext : call.text.toList = call.authority ++ call.path := by
        rw [call_text_toList, hs]
        rfl
      by_cases hstart : startsWith (call.text ++ "/execute") "http:" = true
      · rw [if_pos hstart]
        constructor
        · intro h
          have hlength := congrArg List.length h
          simp [hcalltext, Scheme.name] at hlength
          omega
        · rintro ⟨-, h⟩
          rw [h rfl] at hstart
          cases hstart
      · rw [if_neg hstart]
        constructor
        · intro _
          exact ⟨by decide, fun _ => by simpa using hstart⟩
        · intro _
          simp [hcalltext, Scheme.name]
  | some s =>
      have hcalltext : call.text.toList = s.name ++ "://".toList ++ call.authority ++ call.path := by
        rw [call_text_toList, hs]
        rfl
      cases s with
      | http =>
          have hstart : startsWith (call.text ++ "/execute") "http:" = true := by
            unfold startsWith
            rw [String.toList_append, hcalltext]
            simp [Scheme.name]
          rw [if_pos hstart]
          constructor
          · intro _
            exact ⟨by decide, fun h => by cases h⟩
          · intro _
            simp [hcalltext, Scheme.name]
      | https =>
          have hstart : ¬ startsWith (call.text ++ "/execute") "http:" = true := by
            unfold startsWith
            rw [String.toList_append, hcalltext]
            simp [Scheme.name]
          rw [if_neg hstart]
          constructor
          · intro h
            have hlength := congrArg List.length h
            simp [hcalltext, Scheme.name] at hlength
            omega
          · rintro ⟨h, -⟩
            exact absurd rfl h

end

/-! ### The parameter of the body -/

/-- The text of the parameter `_body`. -/
def IsBody (t : String) : Prop := ∃ bytes, t = "_body=" ++ String.ofList (Base64.encode bytes)

theorem IsBody.toList {t : String} (ht : IsBody t) : ∃ body : List Char,
    t.toList = "_body".toList ++ '=' :: body ∧
      ∀ c ∈ body, uric c = true ∧ c ∉ ['&', '+', '%', '#'] := by
  obtain ⟨bytes, rfl⟩ := ht
  refine ⟨Base64.encode bytes, ?_, ?_⟩
  · rw [String.toList_append, String.toList_ofList]
    simp
  · intro c hc
    rcases Base64.encode_chars hc with hc | rfl
    · have hall : (Base64.alphabet.all fun c => uric c && decide (c ∉ ['&', '+', '%', '#'])) = true := by
        rfl
      have hchar := List.all_eq_true.mp hall c hc
      rwa [Bool.and_eq_true, decide_eq_true_eq] at hchar
    · exact ⟨separator_eq.1, by decide⟩

theorem IsBody.plain {t : String} (ht : IsBody t) : ∃ body : List Char,
    t.toList = pairText ("_body".toList, body) ∧ Plain ("_body".toList, body) ∧
      ∀ c ∈ body, uric c = true := by
  obtain ⟨body, htext, hbody⟩ := ht.toList
  refine ⟨body, htext, ⟨fun c hc => ?_, fun c hc => (hbody c hc).2⟩, fun c hc => (hbody c hc).1⟩
  have hall : ("_body".toList.all fun c => decide (c ∉ ['&', '=', '+', '%', '#'])) = true := by decide
  exact of_decide_eq_true (List.all_eq_true.mp hall c hc)

theorem IsBody.legal {t : String} (ht : IsBody t) : legalText t.toList = true ∧ '#' ∉ t.toList := by
  obtain ⟨body, htext, hplain, hlegal⟩ := ht.plain
  have hno := hplain.notMem
  rw [htext]
  refine ⟨?_, hno.2.2⟩
  rw [legalText_plain hno.2.1 hno.2.2, List.all_eq_true]
  intro c hc
  rcases mem_pairText.mp hc with hc | rfl | hc
  · have hall : "_body".toList.all uric = true := by rfl
    exact List.all_eq_true.mp hall c hc
  · exact separator_eq.1
  · exact hlegal c hc

theorem isBody_of_encode {i : Instruction} {body : String}
    (hbody : encodeBody h http.arrays http.text i = .ok body) : IsBody ("_body=" ++ body) := by
  unfold encodeBody at hbody
  cases hdoc : (getSimplifiedNode h http.arrays i).1 with
  | error e =>
      rw [hdoc] at hbody
      cases hbody
  | ok doc =>
      rw [hdoc] at hbody
      refine ⟨utf8 (trim (http.text.write doc)), ?_⟩
      rw [← Except.ok.inj hbody]
      rfl

/-- Whether parameters are carried does not depend on them. -/
theorem carry_ok_iff (i : Instruction) (method : Option String) (params : List String) :
    (∃ carried, carry h http i method params = .ok carried) ↔
      ∃ carried, carry h http i method [] = .ok carried := by
  rw [carry_eq_map]
  cases carry h http i method [] with
  | error e =>
      constructor
      · rintro ⟨_, hc⟩
        cases hc
      · rintro ⟨_, hc⟩
        cases hc
  | ok carried => exact ⟨fun _ => ⟨_, rfl⟩, fun _ => ⟨_, rfl⟩⟩

/-- The parameters are carried, with at most `_body` behind them. -/
theorem carry_params {i : Instruction} {method : Option String} {params : List String}
    {carried : String × Option Instruction × List String}
    (hcarry : carry h http i method params = .ok carried) :
    ∃ extra, carried.2.2 = params ++ extra ∧ ∀ t ∈ extra, IsBody t := by
  rcases carry_cases h http hcarry with ⟨-, hparams⟩ | ⟨body, hbody, -, hparams⟩
  · exact ⟨[], by rw [hparams, List.append_nil], fun t ht => by cases ht⟩
  · refine ⟨["_body=" ++ body], hparams, fun t ht => ?_⟩
    rw [List.mem_singleton.mp ht]
    exact isBody_of_encode h http hbody

/-! ### Requests that are sent -/

/-- A request whose queries render is built from them. -/
theorem request_of_renders {i : Instruction} {node : PowerTraceNode} {v : View} {r : ρ}
    {pairs : List (String × String)} (hnode : i.nodes.head? = some node)
    (hrenders : Renders h v r node pairs) : ∃ own r', node.headers = some own ∧
      request h http i v r = (build h http i node own (pairs.map paramText), r') ∧
      (pairs.map Prod.fst).Nodup := by
  obtain ⟨own, queries, r', hown, hqueries, hpairs⟩ := hrenders
  refine ⟨own, r', hown, ?_, ?_⟩
  · unfold request
    rw [hnode]
    simp only [hown, hqueries, renderQueries_eq, hpairs]
    rfl
  · rw [renderPairs_keys h hpairs]
    exact queries.nodupKeys

/-- A request that is made has its queries rendered. -/
theorem renders_of_request {i : Instruction} {node : PowerTraceNode} {v : View} {r r' : ρ}
    {req : HttpRequest} (hnode : i.nodes.head? = some node)
    (hreq : request h http i v r = (.ok req, r')) : ∃ pairs, Renders h v r node pairs := by
  obtain ⟨node', own, queries, params, hnode', hown, hqueries, hparams, -⟩ := request_ok h http hreq
  obtain rfl := Option.some.inj (hnode.symm.trans hnode')
  rw [renderQueries_eq] at hparams
  cases hpairs : renderPairs h v queries.entries r with
  | mk out r₁ =>
      rw [hpairs] at hparams
      cases out with
      | error e => cases (Prod.mk.inj hparams).1
      | ok pairs => exact ⟨pairs, own, queries, r₁, hown, hqueries, hpairs⟩

theorem Renders.unique {h : Host ρ} {node : PowerTraceNode} {v : View} {r : ρ}
    {pairs pairs' : List (String × String)} (hpairs : Renders h v r node pairs)
    (hpairs' : Renders h v r node pairs') : pairs' = pairs := by
  obtain ⟨own, queries, r₁, -, hqueries, hrender⟩ := hpairs
  obtain ⟨own', queries', r₂, -, hqueries', hrender'⟩ := hpairs'
  obtain rfl := Option.some.inj (hqueries.symm.trans hqueries')
  rw [hrender] at hrender'
  exact (Except.ok.inj (Prod.mk.inj hrender').1).symm

/-- Key and value as texts. -/
def chars (p : String × String) : List Char × List Char := (p.1.toList, p.2.toList)

theorem paramText_toList (p : String × String) : (paramText p).toList = pairText (chars p) := by
  unfold paramText pairText chars
  rw [String.toList_append, String.toList_append, List.append_assoc]
  rfl

theorem map_paramText_toList (pairs : List (String × String)) :
    (pairs.map paramText).map String.toList = (pairs.map chars).map pairText := by
  rw [List.map_map, List.map_map]
  exact List.map_congr_left fun p _ => paramText_toList p

/-- Whatever is read from a parameter `_body` has that name. -/
theorem readPiece_body (charset : Charset) {t : String} (ht : IsBody t) {q : List Char × List Char}
    (hread : readPiece charset t.toList = some q) : q.1 = "_body".toList := by
  obtain ⟨body, htext, hplain, -⟩ := ht.plain
  rw [htext, readPiece_pairText charset hplain] at hread
  rw [← Option.some.inj hread]

/-- **Parameters**: the container reads the pairs if and only if they are plain and none of them
is called `_body`. -/
theorem read_iff (charset : Charset) {url : String} {pairs : List (String × String)}
    {extra : List String} (hkeys : (pairs.map Prod.fst).Nodup) (hextra : ∀ t ∈ extra, IsBody t)
    (hurl : queryOf url = joined ((pairs.map paramText ++ extra).map String.toList)) :
    (∀ k, ((requestParams charset url).erase "_body").lookup k = (paramMap pairs).lookup k) ↔
      ∀ p ∈ pairs, p.1 ≠ "_body" ∧ Plain (chars p) := by
  rw [List.map_append, map_paramText_toList] at hurl
  constructor
  · intro h
    have hbody : ∀ p ∈ pairs, p.1 ≠ "_body" := by
      intro p hp heq
      have hlookup := h "_body"
      rw [AList.lookup_erase, ← heq, lookup_paramMap_of_mem hkeys hp] at hlookup
      cases hlookup
    have hread : ∀ q ∈ pairs.map chars, q ∈ formPairs charset
        (joined ((pairs.map chars).map pairText ++ extra.map String.toList)) := by
      intro q hq
      obtain ⟨p, hp, rfl⟩ := List.mem_map.mp hq
      have hlookup := h p.1
      rw [AList.lookup_erase_ne (hbody p hp), lookup_paramMap_of_mem hkeys hp] at hlookup
      obtain ⟨t, ht, hmem⟩ := mem_of_lookup_paramMap hlookup
      obtain ⟨q', hq', heq⟩ := List.mem_map.mp hmem
      obtain ⟨hname, hvalue⟩ := Prod.mk.inj heq
      have hpair : chars p = q' := by
        unfold chars
        rw [← hname, Option.some.inj ht, ← hvalue, String.toList_ofList, String.toList_ofList]
      rw [← hurl, hpair]
      exact hq'
    have hothers : ∀ u ∈ extra.map String.toList, ∀ x ∈ (u.takeWhile (· ≠ '#')).splitOn '&',
        ∀ q ∈ pairs.map chars, readPiece charset x ≠ some q := by
      intro u hu x hx q hq hread
      obtain ⟨t, ht, rfl⟩ := List.mem_map.mp hu
      obtain ⟨p, hp, rfl⟩ := List.mem_map.mp hq
      obtain ⟨body, htext, hplain, -⟩ := (hextra t ht).plain
      rw [htext, takeWhile_ne_of_notMem hplain.notMem.2.2,
        List.splitOn_eq_singleton hplain.notMem.1, List.mem_singleton, ← htext] at hx
      rw [hx] at hread
      have hname := readPiece_body charset (hextra t ht) hread
      exact hbody p hp (String.toList_inj.mp hname)
    have hplain : ∀ q ∈ pairs.map chars, Plain q := plain_of_read charset hread hothers
    intro p hp
    exact ⟨hbody p hp, hplain _ (List.mem_map_of_mem hp)⟩
  · intro h k
    have hplain : ∀ q ∈ pairs.map chars, Plain q := by
      intro q hq
      obtain ⟨p, hp, rfl⟩ := List.mem_map.mp hq
      exact (h p hp).2
    have hbodies : ∀ u ∈ extra.map String.toList, '&' ∉ u ∧ '#' ∉ u := by
      intro u hu
      obtain ⟨t, ht, rfl⟩ := List.mem_map.mp hu
      obtain ⟨body, htext, hplain, -⟩ := (hextra t ht).plain
      rw [htext]
      exact ⟨hplain.notMem.1, hplain.notMem.2.2⟩
    have hjoin := formPairs_join charset hplain hbodies
    have hback : (pairs.map chars).map (fun p => (String.ofList p.1, String.ofList p.2)) = pairs := by
      rw [List.map_map]
      refine (List.map_congr_left fun p _ => ?_).trans (List.map_id _)
      simp [chars]
    unfold requestParams
    rw [hurl, hjoin, List.map_append, hback]
    by_cases hk : k = "_body"
    · rw [hk, AList.lookup_erase]
      cases hlookup : (paramMap pairs).lookup "_body" with
      | none => rfl
      | some value =>
          obtain ⟨t, -, hmem⟩ := mem_of_lookup_paramMap hlookup
          exact absurd rfl (h _ hmem).1
    · rw [AList.lookup_erase_ne hk, lookup_paramMap_append]
      cases hlookup : (paramMap (((extra.map String.toList).filterMap (readPiece charset)).map
          fun p => (String.ofList p.1, String.ofList p.2))).lookup k with
      | none => exact Option.or_none
      | some value =>
          obtain ⟨t, -, hmem⟩ := mem_of_lookup_paramMap hlookup
          obtain ⟨q, hq, heq⟩ := List.mem_map.mp hmem
          obtain ⟨u, hu, hread⟩ := List.mem_filterMap.mp hq
          obtain ⟨t', ht', rfl⟩ := List.mem_map.mp hu
          have hname := readPiece_body charset (hextra t' ht') hread
          refine absurd ?_ hk
          rw [← (Prod.mk.inj heq).1, hname]
          rfl

theorem uri_withQuery {http} (hparses : Http.ParsesUris http) {call : Call} {node : PowerTraceNode}
    (hcall : node.call = some call.text) (params : List String) :
    http.uri (withQuery (baseUrl node) params) = (http.uri (baseUrl node) &&
      queryLegal (List.intercalate ['&'] (params.map String.toList))) := by
  obtain ⟨base, hbase, hquery, hhash⟩ := baseUrl_eq hcall
  unfold withQuery
  rw [hbase]
  split
  · rename_i hparams
    rw [hparams]
    exact (Bool.and_true _).symm
  · have h := hparses base (String.intercalate "&" params) hquery hhash
    rw [String.toList_intercalate] at h
    exact h

theorem blank_toList (pairs : List (String × String)) :
    (pairs.map fun p => p.1 ++ "=").map String.toList = (pairs.map chars).map blank := by
  rw [List.map_map, List.map_map]
  refine List.map_congr_left fun p _ => ?_
  simp [chars, blank, pairText]

section
variable {http : Http} (hparses : http.ParsesUris) {call : Call} {node : PowerTraceNode}
  (hcall : node.call = some call.text)
include hparses hcall

/-- A request that is accepted is accepted without the values. -/
theorem sendable_of_accepted {i : Instruction} {pairs : List (String × String)} {extra : List String}
    (hcarry : ∃ carried, carry h http i node.method [] = .ok carried)
    (hlogged : Powerful.logged h http.arrays i = .ok ())
    (haccepted : http.uri (withQuery (baseUrl node) (pairs.map paramText ++ extra)) = true) :
    Sendable h http i node pairs := by
  rw [uri_withQuery hparses hcall, Bool.and_eq_true, List.map_append, map_paramText_toList] at haccepted
  refine ⟨hcarry, hlogged, ?_⟩
  rw [uri_withQuery hparses hcall, Bool.and_eq_true, blank_toList]
  exact ⟨haccepted.1, queryLegal_blank haccepted.2⟩

/-- Plain pairs are accepted if and only if the characters of the values are legal. -/
theorem accepted_iff {i : Instruction} {pairs : List (String × String)} {extra : List String}
    (hsendable : Sendable h http i node pairs) (hplain : ∀ p ∈ pairs, Plain (chars p))
    (hextra : ∀ t ∈ extra, IsBody t) :
    http.uri (withQuery (baseUrl node) (pairs.map paramText ++ extra)) = true ↔
      ∀ p ∈ pairs, ∀ c ∈ p.2.toList, uric c = true := by
  obtain ⟨-, -, hblank⟩ := hsendable
  rw [uri_withQuery hparses hcall, Bool.and_eq_true, blank_toList] at hblank
  have hplain' : ∀ q ∈ pairs.map chars, Plain q := by
    intro q hq
    obtain ⟨p, hp, rfl⟩ := List.mem_map.mp hq
    exact hplain p hp
  have hlegal : ∀ u ∈ extra.map String.toList, legalText u = true ∧ '#' ∉ u := by
    intro u hu
    obtain ⟨t, ht, rfl⟩ := List.mem_map.mp hu
    exact (hextra t ht).legal
  rw [uri_withQuery hparses hcall, Bool.and_eq_true, List.map_append, map_paramText_toList, hblank.1,
    queryLegal_plain_iff hplain' hlegal hblank.2]
  constructor
  · intro hall p hp
    exact hall.2 _ (List.mem_map_of_mem hp)
  · intro hall
    refine ⟨rfl, fun q hq => ?_⟩
    obtain ⟨p, hp, rfl⟩ := List.mem_map.mp hq
    exact hall p hp

end

theorem Writable.plain {call : Call} {pairs : List (String × String)} (hw : Writable call pairs) :
    ∀ p ∈ pairs, p.1 ≠ "_body" ∧ Plain (chars p) := fun p hp =>
  ⟨(hw.keys p hp).1, (hw.keys p hp).2, fun c hc => (hw.values p hp c hc).2⟩

theorem writable_of_addressed {http : Http} (hparses : http.ParsesUris) {charset : Charset}
    {call : Call} {i : Instruction} {node : PowerTraceNode} (hnode : i.nodes.head? = some node)
    (hcall : node.call = some call.text) {v : View} {r : ρ}
    (haddressed : Addressed h http charset call i node v r) {pairs : List (String × String)}
    (hrenders : Renders h v r node pairs) (hsendable : Sendable h http i node pairs) :
    Writable call pairs := by
  have hurl : ∀ params, queryOf (withQuery (baseUrl node) params) = joined (params.map String.toList) :=
    queryOf_withQuery (baseUrl_plain hcall)
  obtain ⟨req, r', hreq⟩ := haddressed.accepted pairs hrenders hsendable
  obtain ⟨htarget, pairs', hrenders', hparams⟩ := haddressed.sent req r' hreq
  obtain rfl := hrenders'.unique hrenders
  obtain ⟨own, r₁, -, hrequest, hkeys⟩ := request_of_renders h http hnode hrenders
  rw [hrequest] at hreq
  obtain ⟨carried, hcarry, -, huri, rfl⟩ := (build_iff h http).mp (Prod.mk.inj hreq).1
  obtain ⟨extra, hextra, hbodies⟩ := carry_params h http hcarry
  simp only [hextra] at htarget hparams huri
  obtain ⟨hscheme, hbare⟩ := (target_iff hcall _).mp htarget
  have hplain := (read_iff charset hkeys hbodies (hurl _)).mp hparams
  have hvalues := (accepted_iff h hparses hcall hsendable (fun p hp => (hplain p hp).2) hbodies).mp huri
  exact ⟨hscheme, hbare, fun p hp => ⟨(hplain p hp).1, (hplain p hp).2.name⟩,
    fun p hp c hc => ⟨hvalues p hp c hc, (hplain p hp).2.value c hc⟩⟩

theorem addressed_of_writable {http : Http} (hparses : http.ParsesUris) (charset : Charset)
    {call : Call} {i : Instruction} {node : PowerTraceNode} (hnode : i.nodes.head? = some node)
    (hcall : node.call = some call.text) {v : View} {r : ρ}
    (hwritable : ∀ pairs, Renders h v r node pairs → Sendable h http i node pairs →
      Writable call pairs) : Addressed h http charset call i node v r := by
  have hurl : ∀ params, queryOf (withQuery (baseUrl node) params) = joined (params.map String.toList) :=
    queryOf_withQuery (baseUrl_plain hcall)
  constructor
  · intro req r' hreq
    obtain ⟨pairs, hrenders⟩ := renders_of_request h http hnode hreq
    obtain ⟨own, r₁, -, hrequest, hkeys⟩ := request_of_renders h http hnode hrenders
    rw [hrequest] at hreq
    obtain ⟨carried, hcarry, hlogged, huri, rfl⟩ := (build_iff h http).mp (Prod.mk.inj hreq).1
    obtain ⟨extra, hextra, hbodies⟩ := carry_params h http hcarry
    simp only [hextra] at huri ⊢
    have hsendable := sendable_of_accepted h hparses hcall
      ((carry_ok_iff h http i node.method _).mp ⟨carried, hcarry⟩) hlogged huri
    have hw := hwritable pairs hrenders hsendable
    exact ⟨(target_iff hcall _).mpr ⟨hw.scheme, hw.bare⟩, pairs, hrenders,
      (read_iff charset hkeys hbodies (hurl _)).mpr hw.plain⟩
  · intro pairs hrenders hsendable
    have hw := hwritable pairs hrenders hsendable
    obtain ⟨own, r₁, -, hrequest, -⟩ := request_of_renders h http hnode hrenders
    obtain ⟨carried, hcarry⟩ := (carry_ok_iff h http i node.method (pairs.map paramText)).mpr
      hsendable.carried
    obtain ⟨extra, hextra, hbodies⟩ := carry_params h http hcarry
    have huri := (accepted_iff h hparses hcall hsendable (fun p hp => (hw.plain p hp).2) hbodies).mpr
      fun p hp c hc => (hw.values p hp c hc).1
    rw [hrequest, (build_iff h http).mpr ⟨carried, hcarry, hsendable.logged, hextra ▸ huri, rfl⟩]
    exact ⟨_, _, rfl⟩

/-- **Address**: a request goes where the call says with what the queries say, and no value
keeps it from being sent, if and only if call and queries are writable or something else keeps
the request from being sent. -/
theorem addressed_iff {http : Http} (hparses : http.ParsesUris) (charset : Charset) {call : Call}
    {i : Instruction} {node : PowerTraceNode} (hnode : i.nodes.head? = some node)
    (hcall : node.call = some call.text) (v : View) (r : ρ) :
    Addressed h http charset call i node v r ↔
      ∀ pairs, Renders h v r node pairs → Sendable h http i node pairs → Writable call pairs := by
  constructor
  · intro haddressed pairs hrenders hsendable
    exact writable_of_addressed h hparses hnode hcall haddressed hrenders hsendable
  · exact addressed_of_writable h hparses charset hnode hcall

/-! ### Requests for one node -/

/-- An HTTP layer whose `URI.create` looks at the query only. -/
def lawful : Http :=
  { Http.sample with uri := fun url => queryLegal (url.toList.dropWhile (· ≠ '?')).tail }

theorem lawful_parsesUris : lawful.ParsesUris := by
  intro base query hquery _
  have hbase : ∀ c ∈ (base ++ "/execute").toList, decide (c ≠ '?') = true := by
    intro c hc
    rw [String.toList_append, List.mem_append] at hc
    simp only [decide_eq_true_eq]
    rintro rfl
    rcases hc with hc | hc
    · exact hquery hc
    · exact absurd hc (by decide)
  have haddress : lawful.uri (base ++ "/execute") = true := by
    unfold lawful
    simp only
    rw [List.dropWhile_eq_nil_iff.mpr hbase]
    rfl
  rw [haddress, Bool.true_and]
  unfold lawful
  simp only
  rw [String.toList_append, String.toList_append, List.append_assoc, List.dropWhile_append_of_pos hbase]
  rfl

/-- One byte is one character. -/
def latin : Charset where
  text bytes := bytes.map fun b => Char.ofNat b.toNat
  length_text_le bytes := by rw [List.length_map]

/-- A call to the path `/x` of `a`. -/
def sampleTo (scheme : Option Scheme) : Call where
  scheme := scheme
  authority := ['a']
  path := ['/', 'x']
  authority_ne_nil := by decide
  authority_plain := by simp
  path_head := Or.inr rfl
  path_plain := by simp
  bare := by
    rintro - (_ | _)
    · decide
    · decide

/-- A node with one query. -/
def sampleNode (scheme : Option Scheme) (value : String) : PowerTraceNode :=
  { call := some (sampleTo scheme).text, queries := some (AList.singleton "k" (some value)) }

def sampleInstruction (scheme : Option Scheme) (value : String) : Instruction where
  trace := some [sampleNode scheme value]
  collectBy := none
  traceNodeTmpl := none
  log := false

def sampleView : View := ⟨some ∅, "", ∅, {}⟩

theorem renders_sample (scheme : Option Scheme) {value : String} (hvalue : hasExpr value = false) :
    Renders Host.bare sampleView () (sampleNode scheme value) [("k", value)] := by
  refine ⟨∅, AList.singleton "k" (some value), (), rfl, rfl, ?_⟩
  have hrender : renderNullable Host.bare sampleView (some value) () = (.ok (some value), ()) :=
    renderNullable_ok (render_literal _ _ hvalue _)
  have hentries : (AList.singleton "k" (some value) : Headers).entries = [⟨"k", some value⟩] := rfl
  rw [hentries, renderPairs]
  simp only [hrender, renderPairs]
  rfl

theorem sendable_sample (scheme : Option Scheme) (value : String) :
    Sendable Host.bare lawful (sampleInstruction scheme value) (sampleNode scheme value)
      [("k", value)] := by
  refine ⟨⟨_, rfl⟩, rfl, ?_⟩
  have hcall : (sampleNode scheme value).call = some (sampleTo scheme).text := rfl
  rw [uri_withQuery lawful_parsesUris hcall, blank_toList, Bool.and_eq_true]
  constructor
  · have haddress : ∀ call, lawful.uri (baseUrl { call := some (sampleTo call).text }) = true := by
      rintro (_ | _ | _)
      · rfl
      · rfl
      · rfl
    exact haddress scheme
  · have hblank : List.map blank (List.map chars [("k", value)]) = [['k', '=']] := by
      simp [chars, blank, pairText]
    rw [hblank]
    rfl

/-- A call without scheme and a value of legal characters. -/
theorem addressed_iff_sample : Addressed Host.bare lawful latin (sampleTo none)
    (sampleInstruction none "1") (sampleNode none "1") sampleView () := by
  refine (addressed_iff Host.bare lawful_parsesUris latin rfl rfl sampleView ()).mpr ?_
  intro pairs hpairs _
  have hvalue : hasExpr "1" = false := by decide
  obtain rfl := (renders_sample none hvalue).unique hpairs
  have hkey : ("k".toList.all fun c => decide (c ∉ ['&', '=', '+', '%', '#'])) = true := by decide
  have hlegal : ("1".toList.all fun c => uric c && decide (c ∉ ['&', '+', '%', '#'])) = true := by
    rfl
  refine ⟨by decide, fun _ => by decide, fun p hp => ?_, fun p hp c hc => ?_⟩
  · rw [List.mem_singleton.mp hp]
    exact ⟨by decide, fun c hc => of_decide_eq_true (List.all_eq_true.mp hkey c hc)⟩
  · rw [List.mem_singleton.mp hp] at hc
    have hchar := List.all_eq_true.mp hlegal c hc
    rwa [Bool.and_eq_true, decide_eq_true_eq] at hchar

theorem writable_sample {scheme : Option Scheme} {value : String} (hvalue : hasExpr value = false)
    (haddressed : Addressed Host.bare lawful latin (sampleTo scheme) (sampleInstruction scheme value)
      (sampleNode scheme value) sampleView ()) : Writable (sampleTo scheme) [("k", value)] :=
  writable_of_addressed Host.bare lawful_parsesUris rfl rfl haddressed (renders_sample scheme hvalue)
    (sendable_sample scheme value)

/-- A call with the scheme `https`, a value that holds a separator, and one that holds a blank:
the first two go elsewhere, the last one is not sent. -/
theorem not_addressed :
    ¬ Addressed Host.bare lawful latin (sampleTo (some .https)) (sampleInstruction (some .https) "1")
      (sampleNode (some .https) "1") sampleView () ∧
    ¬ Addressed Host.bare lawful latin (sampleTo none) (sampleInstruction none "1&b=2")
      (sampleNode none "1&b=2") sampleView () ∧
    ¬ Addressed Host.bare lawful latin (sampleTo none) (sampleInstruction none "1 2")
      (sampleNode none "1 2") sampleView () := by
  refine ⟨fun h => ?_, fun h => ?_, fun h => ?_⟩
  · exact (writable_sample (by decide) h).scheme rfl
  · have hvalue := (writable_sample (by decide) h).values _ List.mem_cons_self '&' (by decide)
    exact hvalue.2 (by decide)
  · have hvalue := (writable_sample (by decide) h).values _ List.mem_cons_self ' ' (by decide)
    have hblank : uric ' ' = false := by rfl
    rw [hblank] at hvalue
    cases hvalue.1

end HttpRemoteInvoker

end Powerful
