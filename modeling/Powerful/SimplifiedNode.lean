import Mathlib
import Powerful.Base64
import Powerful.Beans

/-! # The compact form of an instruction

`getSimplifiedNode` writes an instruction as the JSON difference from a default object,
replayed on the empty object, node by node and then for the instruction itself.  A GET or
DELETE request carries this document as URL-safe base64 in the parameter `_body`
(`encodeBody`, `decodeBody`); a POST or PUT request carries the whole instruction
(`postInstruction`).  The text level of JSON is a parameter, `JsonText`; the comparison of
two JSON arrays is one too, as no array is ever compared here with another one.

`simplify_node` and `simplify_instruction` say what the documents hold, and
`decode_simplified` what a receiver with defaults of its own reads from them.  The two ways
of carrying an instruction agree only under the conditions of
`getBody_eq_postBody_iff`. -/

namespace Powerful

variable {ρ : Type}

/-- The comparison of two JSON arrays (a part of the JSON diff library). -/
abbrev ArrayDiff := List String → List Json → List Json → List Json.Op

/-! ### The document -/

/-- The default node a node is compared with: a map is null there iff the node's is inhabited. -/
def baseNode (t : PowerTraceNode) : Except Exc PowerTraceNode :=
  match t.queries, t.headers, t.responseHeaders with
  | some queries, some headers, some responseHeaders =>
      .ok { queries := if queries.entries = [] then some ∅ else none
            headers := if headers.entries = [] then some ∅ else none
            responseHeaders := if responseHeaders.entries = [] then some ∅ else none }
  | _, _, _ => .error .nullPointer

/-- The difference of two objects, replayed on the empty object. -/
def simplify (arrays : ArrayDiff) (base target : Json) : Except Exc Json :=
  match Json.applyAll true (Json.diff arrays [] base target) (.obj []) with
  | some result => .ok result
  | none => .error (.jsonPatch "Missing field")

def simplifyNodes (arrays : ArrayDiff) : List PowerTraceNode → Except Exc (List Json)
  | [] => .ok []
  | t :: ts => do
      let n ← baseNode t
      let j ← simplify arrays n.toJson t.toJson
      let js ← simplifyNodes arrays ts
      .ok (j :: js)

/-- `((ObjectNode) result).put("trace", trace)`. -/
def putTrace (trace : List Json) : Json → Except Exc Json
  | .obj fs => .ok (.obj (Json.putField "trace" (.arr trace) fs))
  | _ => .error (.thrown (some "not an ObjectNode"))

/-- The compact form of an `Instruction` that is not a case, with the instruction as the
method leaves it: its trace is set to null during the last comparison and set back behind it,
but not when the comparison throws. -/
def simplifyInPlace (h : Host ρ) (arrays : ArrayDiff) (i : Instruction) :
    Except Exc Json × Instruction :=
  match i.trace with
  | none => (.error .nullPointer, i)
  | some ns => match simplifyNodes arrays ns with
    | .error e => (.error e, i)
    | .ok trace =>
        match simplify arrays { Instruction.new h with trace := none }.toJson
            { i with trace := none }.toJson with
        | .error e => (.error e, { i with trace := none })
        | .ok result => (putTrace trace result, i)

/-- The compact form of an instruction, with the instruction as the method leaves it.  A case
is copied first, and the copy is simplified. -/
def getSimplifiedNode (h : Host ρ) (arrays : ArrayDiff) (i : Instruction) :
    Except Exc Json × Instruction :=
  if i.caseInfo.isSome then
    match decodeInstruction h false i.toJson with
    | .error e => (.error e, i)
    | .ok copy => ((simplifyInPlace h arrays copy).1, i)
  else simplifyInPlace h arrays i

/-! ### The two bodies -/

/-- Writing and reading JSON texts. -/
structure JsonText where
  write : Json → String
  read : String → Option Json

/-- The bytes of a text in UTF-8. -/
def utf8 (s : String) : List UInt8 := s.toList.flatMap String.utf8EncodeChar

def encodeURLBase64 (body : String) : String := String.ofList (Base64.encode (utf8 (trim body)))

/-- The bytes are read in the default charset of the process. -/
def decodeURLBase64 (h : Host ρ) (base64 : String) : Except Exc String :=
  match Base64.decode base64.toList with
  | some bytes => .ok (h.decodeBytes bytes)
  | none => .error (.illegalArgument "Illegal base64 character")

/-- The parameter `_body` of a GET or DELETE request. -/
def encodeBody (sender : Host ρ) (arrays : ArrayDiff) (text : JsonText) (i : Instruction) :
    Except Exc String :=
  (getSimplifiedNode sender arrays i).1.map (fun j => encodeURLBase64 (text.write j))

/-- An invoker writes the compact form to the log, if the instruction says so. -/
def logged (sender : Host ρ) (arrays : ArrayDiff) (i : Instruction) : Except Exc Unit :=
  if i.log then (getSimplifiedNode sender arrays i).1.map fun _ => () else .ok ()

/-- The instruction the GET and DELETE handler reads from `_body`. -/
def decodeBody (receiver : Host ρ) (text : JsonText) (body : String) : Except Exc Instruction := do
  let source ← decodeURLBase64 receiver body
  match text.read source with
  | some j => decodeInstruction receiver true j
  | none => .error (.jsonMapping "Unexpected character")

/-- The instruction the GET and DELETE handler gets. -/
def getBody (sender receiver : Host ρ) (arrays : ArrayDiff) (text : JsonText) (i : Instruction) :
    Except Exc Instruction := do
  let body ← encodeBody sender arrays text i
  decodeBody receiver text body

/-- The instruction the POST and PUT handler gets. -/
def postBody (receiver : Host ρ) (i : Instruction) : Except Exc Instruction :=
  decodeInstruction receiver false i.toJson

theorem postBody_eq (receiver : Host ρ) (i : Instruction) :
    postBody receiver i = .ok { i with caseInfo := none } := decodeInstruction_encode receiver i

/-! ### Nodes -/

/-- A node whose three maps are there. -/
def PowerTraceNode.HasMaps (n : PowerTraceNode) : Prop :=
  n.queries.isSome ∧ n.headers.isSome ∧ n.responseHeaders.isSome

/-- A default map is compared with the map of the node without looking inside, and stands for
it where both agree. -/
theorem baseMap_spec (m : Headers) :
    Json.Plain (ofHeaders (if m.entries = [] then some ∅ else none)) (ofHeaders (some m)) ∧
      MapDefault (if m.entries = [] then some ∅ else none) (some m) := by
  by_cases hm : m.entries = []
  · have he : m = ∅ := AList.ext hm
    rw [if_pos hm, he]
    exact ⟨Or.inl rfl, fun _ => rfl⟩
  · rw [if_neg hm]
    constructor
    · refine Or.inr ⟨?_, ?_⟩
      · rintro fs gs ⟨hnull, -⟩
        cases hnull
      · rintro xs ys ⟨hnull, -⟩
        cases hnull
    · intro heq
      cases heq

theorem plain_scalar {j : Json} (hobj : ∀ fs, j ≠ .obj fs) (harr : ∀ xs, j ≠ .arr xs) (k : Json) :
    Json.Plain j k :=
  Or.inr ⟨fun fs _ h => hobj fs h.1, fun xs _ h => harr xs h.1⟩

theorem plain_ofString (s : Option String) (k : Json) : Json.Plain (ofString s) k := by
  cases s <;> exact plain_scalar (fun _ h => by cases h) (fun _ h => by cases h) k

theorem plain_ofInteger (n : Option Int32) (k : Json) : Json.Plain (ofInteger n) k := by
  cases n <;> exact plain_scalar (fun _ h => by cases h) (fun _ h => by cases h) k

theorem plain_int (n : ℤ) (k : Json) : Json.Plain (.int n) k :=
  plain_scalar (fun _ h => by cases h) (fun _ h => by cases h) k

theorem plain_dbl (q : ℚ) (k : Json) : Json.Plain (.dbl q) k :=
  plain_scalar (fun _ h => by cases h) (fun _ h => by cases h) k

theorem plain_bool (b : Bool) (k : Json) : Json.Plain (.bool b) k :=
  plain_scalar (fun _ h => by cases h) (fun _ h => by cases h) k

theorem flat_node {m n : PowerTraceNode} (hh : Json.Plain (ofHeaders m.headers) (ofHeaders n.headers))
    (hr : Json.Plain (ofHeaders m.responseHeaders) (ofHeaders n.responseHeaders))
    (hq : Json.Plain (ofHeaders m.queries) (ofHeaders n.queries)) : Json.Flat m.fields n.fields :=
  .cons ⟨rfl, plain_ofString _ _⟩ (.cons ⟨rfl, plain_ofString _ _⟩
    (.cons ⟨rfl, plain_ofString _ _⟩ (.cons ⟨rfl, plain_int _ _⟩ (.cons ⟨rfl, hh⟩ (.cons ⟨rfl, hr⟩
      (.cons ⟨rfl, hq⟩ (.cons ⟨rfl, plain_ofInteger _ _⟩ (.cons ⟨rfl, plain_dbl _ _⟩
        (.cons ⟨rfl, plain_ofInteger _ _⟩ .nil)))))))))

/-- **Nodes**: a node is written as the fields in which it differs from its default node, and
reading them gives the node back. -/
theorem simplify_node (arrays : ArrayDiff) {n : PowerTraceNode} (hn : n.HasMaps) :
    ∃ base, baseNode n = .ok base ∧
      simplify arrays base.toJson n.toJson = .ok (.obj (Json.differing base.fields n.fields)) ∧
      ∀ (h : Host ρ) (strict : Bool),
        decodeNode h strict (.obj (Json.differing base.fields n.fields)) = .ok n := by
  obtain ⟨hq, hh, hr⟩ := hn
  obtain ⟨queries, hq⟩ := Option.isSome_iff_exists.mp hq
  obtain ⟨headers, hh⟩ := Option.isSome_iff_exists.mp hh
  obtain ⟨responseHeaders, hr⟩ := Option.isSome_iff_exists.mp hr
  obtain ⟨hq₁, hq₂⟩ := baseMap_spec queries
  obtain ⟨hh₁, hh₂⟩ := baseMap_spec headers
  obtain ⟨hr₁, hr₂⟩ := baseMap_spec responseHeaders
  refine ⟨_, by rw [baseNode, hq, hh, hr], ?_, ?_⟩
  · unfold simplify PowerTraceNode.toJson
    rw [Json.replay arrays (flat_node (hh ▸ hh₁) (hr ▸ hr₁) (hq ▸ hq₁))
      (by rw [nodeKeys_eq]; exact nodeKeys_nodup)]
  · intro h strict
    exact decodeNode_differing h strict rfl (hh ▸ hh₂) (hr ▸ hr₂) (hq ▸ hq₂)

/-- The nodes of a trace, one object each and in order. -/
theorem simplifyNodes_spec (arrays : ArrayDiff) {ns : List PowerTraceNode}
    (hns : ∀ n ∈ ns, n.HasMaps) :
    ∃ js, simplifyNodes arrays ns = .ok js ∧
      ∀ (h : Host ρ) (strict : Bool), decodeNodes h strict js = .ok ns := by
  induction ns with
  | nil => exact ⟨[], rfl, fun _ _ => rfl⟩
  | cons n ns ih =>
      obtain ⟨js, hjs, hdec⟩ := ih (fun m hm => hns m (List.mem_cons_of_mem n hm))
      obtain ⟨base, hbase, hsimp, hnode⟩ := simplify_node (ρ := ρ) arrays (hns n List.mem_cons_self)
      refine ⟨.obj (Json.differing base.fields n.fields) :: js, ?_, ?_⟩
      · unfold simplifyNodes
        rw [hbase, hjs]
        simp only [bind, Except.bind, hsimp]
      · intro h strict
        unfold decodeNodes
        rw [hnode h strict, hdec h strict]
        rfl

/-! ### The instruction -/

/-- What a receiver with its own defaults makes of an instruction of the sender: a setting
that is the sender's default is not in the document. -/
def refill (sender receiver : Host ρ) (i : Instruction) : Instruction :=
  { i with
    collectBy := if i.collectBy = some (defaultCollectBy sender) then
      some (defaultCollectBy receiver) else i.collectBy
    traceNodeTmpl := if i.traceNodeTmpl = some (defaultTraceNodeTmpl sender) then
      some (defaultTraceNodeTmpl receiver) else i.traceNodeTmpl
    caseInfo := none }

/-- The properties of an instruction before `rr`, as they are compared. -/
def settings (i : Instruction) : List (String × Json) :=
  [("trace", .null), ("times", .int i.times.toInt), ("threads", .int i.threads.toInt),
    ("qps", .int i.qps.toInt), ("propagateHeaders", ofString i.propagateHeaders),
    ("collectBy", ofString i.collectBy), ("traceNodeTmpl", ofString i.traceNodeTmpl),
    ("log", .bool i.log)]

/-- The properties that are compared last. -/
def comparedFields (i : Instruction) : List (String × Json) := settings i ++ [("rr", ofRr i.rr)]

theorem toJson_compared {i : Instruction} (hcase : i.caseInfo = none) :
    { i with trace := none }.toJson = .obj (comparedFields i) := by
  obtain ⟨trace, times, threads, qps, propagateHeaders, collectBy, traceNodeTmpl, log, rr, info⟩ := i
  cases hcase
  rfl

theorem comparedFields_keys (i : Instruction) :
    (comparedFields i).map Prod.fst = instructionKeys := rfl

theorem comparedFields_nodup (i : Instruction) : ((comparedFields i).map Prod.fst).Nodup := by
  rw [comparedFields_keys]
  exact instructionKeys_nodup

theorem flat_settings (i j : Instruction) : Json.Flat (settings i) (settings j) :=
  .cons ⟨rfl, Or.inl rfl⟩ (.cons ⟨rfl, plain_int _ _⟩ (.cons ⟨rfl, plain_int _ _⟩
    (.cons ⟨rfl, plain_int _ _⟩ (.cons ⟨rfl, plain_ofString _ _⟩ (.cons ⟨rfl, plain_ofString _ _⟩
      (.cons ⟨rfl, plain_ofString _ _⟩ (.cons ⟨rfl, plain_bool _ _⟩ .nil)))))))

/-- **Instructions without `rr`**: the document holds the fields that differ from the sender's
defaults. -/
theorem simplify_instruction (arrays : ArrayDiff) (i j : Instruction) (hi : i.rr = some ∅)
    (hj : j.rr = some ∅) :
    simplify arrays (.obj (comparedFields i)) (.obj (comparedFields j)) =
      .ok (.obj (Json.differing (comparedFields i) (comparedFields j))) := by
  have hflat : Json.Flat (comparedFields i) (comparedFields j) := by
    refine List.rel_append (flat_settings i j) (.cons ⟨rfl, Or.inl ?_⟩ .nil)
    rw [hi, hj]
  unfold simplify
  rw [Json.replay arrays hflat (comparedFields_nodup j)]

/-- **Instructions with `rr`**: the replay is refused, since the first entry of `rr` is added
to an object that is not there. -/
theorem simplify_instruction_refused (arrays : ArrayDiff) (i j : Instruction) (hi : i.rr = some ∅)
    {rr : StringMap (Option (List Json))} (hj : j.rr = some rr) (hrr : rr ≠ ∅) :
    simplify arrays (.obj (comparedFields i)) (.obj (comparedFields j)) =
      .error (.jsonPatch "Missing field") := by
  have hentries : rr.entries ≠ [] := fun h => hrr (AList.ext h)
  obtain ⟨e, es, hes⟩ := List.exists_cons_of_ne_nil hentries
  have hfi : comparedFields i = settings i ++ [("rr", .obj [])] := by
    unfold comparedFields
    rw [hi]
    rfl
  have hfj : comparedFields j = settings j ++
      [("rr", .obj ((e.1, ofValues e.2) :: es.map (fun e => (e.1, ofValues e.2))))] := by
    unfold comparedFields
    simp only [hj, ofRr, hes, List.map_cons]
  have hrefused := Json.replay_refused arrays (flat_settings i j)
    (hfj ▸ comparedFields_nodup j) (hfi ▸ hfj ▸ (comparedFields_keys i).trans (comparedFields_keys j).symm)
  unfold simplify
  rw [hfi, hfj, hrefused]

/-- Reading the document of an instruction without `rr`: every setting is the one of the
sender, except that a default of the sender is refilled by the receiver. -/
theorem decode_simplified (sender receiver : Host ρ) {i : Instruction} {ns : List PowerTraceNode}
    (hrr : i.rr = some ∅) {js : List Json} (hjs : decodeNodes receiver true js = .ok ns) :
    decodeInstruction receiver true (.obj (Json.putField "trace" (.arr js)
      (Json.differing (comparedFields (Instruction.new sender)) (comparedFields i)))) =
      .ok (refill sender receiver { i with trace := some ns }) := by
  obtain ⟨D, hD⟩ : ∃ D, D = Json.differing (comparedFields (Instruction.new sender))
    (comparedFields i) := ⟨_, rfl⟩
  rw [← hD]
  have hn := comparedFields_nodup i
  have hput : Json.putField "trace" (.arr js) D = D ++ [("trace", .arr js)] := by
    refine Json.putField_of_lookup_none ?_
    rw [hD, Json.lookup_differing hn]
    rfl
  have hknown : ∀ f ∈ Json.putField "trace" (.arr js) D, f.1 ∈ instructionKeys := by
    intro f hf
    rw [hput, List.mem_append, List.mem_singleton] at hf
    rcases hf with hf | rfl
    · rw [← comparedFields_keys i]
      rw [hD] at hf
      exact List.mem_map_of_mem (List.mem_filter.mp hf).1
    · simp [instructionKeys]
  have htrace : field (Json.putField "trace" (.arr js) D) "trace" (some []) (asTrace receiver true) =
      .ok (some ns) := by
    refine field_of_lookup (Json.lookup_putField_self _ _ _) ?_
    simp only [asTrace, hjs, Except.map]
  have hother : ∀ (k : String), k ≠ "trace" → ∀ {α : Type} (d : α) (conv : Json → Except Exc α),
      field (Json.putField "trace" (.arr js) D) k d conv = field D k d conv := by
    intro k hk α d conv
    unfold field
    rw [Json.lookup_putField_ne hk]
  have hint : ∀ {m n : Int32}, some (Json.int m.toInt) = some (Json.int n.toInt) → m = n :=
    fun h => Int32.toInt_inj.mp (Json.int.inj (Option.some.inj h))
  have htimes : field D "times" 1 asInt = .ok i.times :=
    hD ▸ field_differing hn rfl (asInt_toInt i.times) hint
  have hthreads : field D "threads" 1 asInt = .ok i.threads :=
    hD ▸ field_differing hn rfl (asInt_toInt i.threads) hint
  have hqps : field D "qps" 0 asInt = .ok i.qps :=
    hD ▸ field_differing hn rfl (asInt_toInt i.qps) hint
  have hpropagate : field D "propagateHeaders" (some "") (asString receiver) =
      .ok i.propagateHeaders :=
    hD ▸ field_differing hn rfl (asString_ofString receiver i.propagateHeaders)
      (fun h => ofString_injective (Option.some.inj h))
  have hlog : field D "log" true asBoolean = .ok i.log :=
    hD ▸ field_differing hn rfl (asBoolean_bool i.log) (fun h => Json.bool.inj (Option.some.inj h))
  have hempty : field D "rr" (some ∅) asRr = .ok i.rr :=
    hD ▸ field_differing hn rfl (asRr_ofRr i.rr) (fun _ => hrr.symm)
  have hstring : ∀ s t : Option String, some (ofString s) = some (ofString t) ↔ t = s :=
    fun s t => ⟨fun h => (ofString_injective (Option.some.inj h)).symm, fun h => by rw [h]⟩
  have hcollect : field D "collectBy" (some (defaultCollectBy receiver)) (asString receiver) =
      .ok (if i.collectBy = some (defaultCollectBy sender) then some (defaultCollectBy receiver)
        else i.collectBy) := by
    rw [hD, field_differing_eq hn rfl (asString_ofString receiver i.collectBy)]
    exact congrArg Except.ok (if_congr (hstring _ _) rfl rfl)
  have htmpl : field D "traceNodeTmpl" (some (defaultTraceNodeTmpl receiver)) (asString receiver) =
      .ok (if i.traceNodeTmpl = some (defaultTraceNodeTmpl sender) then
        some (defaultTraceNodeTmpl receiver) else i.traceNodeTmpl) := by
    rw [hD, field_differing_eq hn rfl (asString_ofString receiver i.traceNodeTmpl)]
    exact congrArg Except.ok (if_congr (hstring _ _) rfl rfl)
  unfold decodeInstruction decodeFields refill
  simp only [bind, Except.bind, checkKnown_of_subset hknown, htrace, ne_eq, hother, htimes,
    hthreads, hqps, hpropagate, hcollect, htmpl, hlog, hempty, String.reduceEq,
    not_false_eq_true]

/-- **Without `rr`** the document is made, and its argument is left as it was. -/
theorem simplifyInPlace_eq (sender : Host ρ) (arrays : ArrayDiff) {i : Instruction}
    {ns : List PowerTraceNode} (hcase : i.caseInfo = none) (ht : i.trace = some ns)
    (hns : ∀ n ∈ ns, n.HasMaps) (hrr : i.rr = some ∅) :
    ∃ j, simplifyInPlace sender arrays i = (.ok j, i) ∧
      ∀ receiver : Host ρ, decodeInstruction receiver true j = .ok (refill sender receiver i) := by
  obtain ⟨js, hjs, hdec⟩ := simplifyNodes_spec (ρ := ρ) arrays hns
  have hbase := toJson_compared (show (Instruction.new sender).caseInfo = none from rfl)
  have hsimp := simplify_instruction arrays (Instruction.new sender) i rfl hrr
  refine ⟨.obj (Json.putField "trace" (.arr js)
    (Json.differing (comparedFields (Instruction.new sender)) (comparedFields i))), ?_, ?_⟩
  · unfold simplifyInPlace
    simp only [ht, hjs, hbase, toJson_compared hcase, hsimp, putTrace]
  · intro receiver
    rw [decode_simplified sender receiver hrr (hdec receiver true), ← ht]

/-- **With `rr`** the comparison throws, and the argument is left without its trace. -/
theorem simplifyInPlace_refused (sender : Host ρ) (arrays : ArrayDiff) {i : Instruction}
    {ns : List PowerTraceNode} {rr : StringMap (Option (List Json))} (hcase : i.caseInfo = none)
    (ht : i.trace = some ns) (hns : ∀ n ∈ ns, n.HasMaps) (hi : i.rr = some rr) (hrr : rr ≠ ∅) :
    simplifyInPlace sender arrays i =
      (.error (.jsonPatch "Missing field"), { i with trace := none }) := by
  obtain ⟨js, hjs, -⟩ := simplifyNodes_spec (ρ := ρ) arrays hns
  have hbase := toJson_compared (show (Instruction.new sender).caseInfo = none from rfl)
  unfold simplifyInPlace
  simp only [ht, hjs, hbase, toJson_compared hcase,
    simplify_instruction_refused arrays (Instruction.new sender) i rfl hi hrr]

/-- The document of a case is the one of the instruction it extends. -/
theorem getSimplifiedNode_fst (sender : Host ρ) (arrays : ArrayDiff) (i : Instruction) :
    (getSimplifiedNode sender arrays i).1 =
      (simplifyInPlace sender arrays { i with caseInfo := none }).1 := by
  unfold getSimplifiedNode
  by_cases hcase : i.caseInfo.isSome
  · rw [if_pos hcase, decodeInstruction_encode]
  · rw [if_neg hcase]
    rw [Option.not_isSome_iff_eq_none] at hcase
    have hi : { i with caseInfo := none } = i := by rw [← hcase]
    rw [hi]

theorem decodeURLBase64_encode (receiver : Host ρ) {s t : String}
    (h : receiver.decodeBytes (utf8 (trim s)) = t) :
    decodeURLBase64 receiver (encodeURLBase64 s) = .ok t := by
  unfold decodeURLBase64 encodeURLBase64
  rw [String.toList_ofList, Base64.decode_encode]
  exact congrArg Except.ok h

/-- A receiver refills nothing differently exactly when the defaults it refills are the
sender's. -/
theorem refill_eq_iff (sender receiver : Host ρ) (i : Instruction) :
    refill sender receiver { i with caseInfo := none } = { i with caseInfo := none } ↔
      (i.collectBy = some (defaultCollectBy sender) →
        defaultCollectBy receiver = defaultCollectBy sender) ∧
      (i.traceNodeTmpl = some (defaultTraceNodeTmpl sender) →
        defaultTraceNodeTmpl receiver = defaultTraceNodeTmpl sender) := by
  unfold refill
  constructor
  · intro h
    have hc := congrArg Instruction.collectBy h
    have ht := congrArg Instruction.traceNodeTmpl h
    simp only at hc ht
    constructor
    · intro hi
      rw [if_pos hi, hi] at hc
      exact Option.some.inj hc
    · intro hi
      rw [if_pos hi, hi] at ht
      exact Option.some.inj ht
  · rintro ⟨hc, ht⟩
    have hcollect : (if i.collectBy = some (defaultCollectBy sender) then
        some (defaultCollectBy receiver) else i.collectBy) = i.collectBy := by
      by_cases hi : i.collectBy = some (defaultCollectBy sender)
      · rw [if_pos hi, hc hi, hi]
      · rw [if_neg hi]
    have htmpl : (if i.traceNodeTmpl = some (defaultTraceNodeTmpl sender) then
        some (defaultTraceNodeTmpl receiver) else i.traceNodeTmpl) = i.traceNodeTmpl := by
      by_cases hi : i.traceNodeTmpl = some (defaultTraceNodeTmpl sender)
      · rw [if_pos hi, ht hi, hi]
      · rw [if_neg hi]
    simp only [hcollect, htmpl]

/-- What the GET handler gets, if `rr` is empty and the receiver reads the document. -/
theorem getBody_eq_refill (sender receiver : Host ρ) (arrays : ArrayDiff) (text : JsonText)
    {i : Instruction} {ns : List PowerTraceNode} (ht : i.trace = some ns)
    (hns : ∀ n ∈ ns, n.HasMaps) (hrr : i.rr = some ∅)
    (hread : ∀ j, (getSimplifiedNode sender arrays i).1 = .ok j → text.read (text.write j) = some j)
    (hcharset : ∀ j, (getSimplifiedNode sender arrays i).1 = .ok j →
      receiver.decodeBytes (utf8 (trim (text.write j))) = text.write j) :
    getBody sender receiver arrays text i =
      .ok (refill sender receiver { i with caseInfo := none }) := by
  rw [getSimplifiedNode_fst] at hread hcharset
  obtain ⟨doc, hdoc, hdec⟩ := simplifyInPlace_eq sender arrays (i := { i with caseInfo := none })
    rfl ht hns hrr
  have hbody : encodeBody sender arrays text i = .ok (encodeURLBase64 (text.write doc)) := by
    unfold encodeBody
    rw [getSimplifiedNode_fst, hdoc]
    rfl
  have hd : (simplifyInPlace sender arrays { i with caseInfo := none }).1 = .ok doc := by
    rw [hdoc]
  unfold getBody decodeBody
  rw [hbody]
  simp only [bind, Except.bind]
  rw [decodeURLBase64_encode receiver (hcharset doc hd)]
  simp only [hread doc hd, hdec]

/-- With an inhabited `rr` there is no request. -/
theorem getBody_refused (sender receiver : Host ρ) (arrays : ArrayDiff) (text : JsonText)
    {i : Instruction} {ns : List PowerTraceNode} {rr : StringMap (Option (List Json))}
    (ht : i.trace = some ns) (hns : ∀ n ∈ ns, n.HasMaps) (hi : i.rr = some rr) (hrr : rr ≠ ∅) :
    getBody sender receiver arrays text i = .error (.jsonPatch "Missing field") := by
  have hrefused := simplifyInPlace_refused sender arrays (i := { i with caseInfo := none })
    rfl ht hns hi hrr
  unfold getBody encodeBody
  rw [getSimplifiedNode_fst, hrefused]
  rfl

/-- **The two ways of carrying an instruction agree** exactly when `rr` is empty and a setting
that is the sender's default is the receiver's default too.  The JSON library reads back the
document it wrote, and the receiver's default charset reads the document's UTF-8 bytes. -/
theorem getBody_eq_postBody_iff (sender receiver : Host ρ) (arrays : ArrayDiff) (text : JsonText)
    {i : Instruction} {ns : List PowerTraceNode} {rr : StringMap (Option (List Json))}
    (ht : i.trace = some ns) (hns : ∀ n ∈ ns, n.HasMaps) (hi : i.rr = some rr)
    (hread : ∀ j, (getSimplifiedNode sender arrays i).1 = .ok j → text.read (text.write j) = some j)
    (hcharset : ∀ j, (getSimplifiedNode sender arrays i).1 = .ok j →
      receiver.decodeBytes (utf8 (trim (text.write j))) = text.write j) :
    (∃ j, getBody sender receiver arrays text i = .ok j ∧ postBody receiver i = .ok j) ↔
      rr = ∅ ∧
      (i.collectBy = some (defaultCollectBy sender) →
        defaultCollectBy receiver = defaultCollectBy sender) ∧
      (i.traceNodeTmpl = some (defaultTraceNodeTmpl sender) →
        defaultTraceNodeTmpl receiver = defaultTraceNodeTmpl sender) := by
  by_cases hrr : rr = ∅
  · rw [getBody_eq_refill sender receiver arrays text ht hns (hrr ▸ hi) hread hcharset, postBody_eq,
      ← refill_eq_iff]
    constructor
    · rintro ⟨j, hj, hp⟩
      exact ⟨hrr, Except.ok.inj (hj.trans hp.symm)⟩
    · rintro ⟨-, heq⟩
      exact ⟨_, rfl, by rw [heq]⟩
  · rw [getBody_refused sender receiver arrays text ht hns hi hrr]
    constructor
    · rintro ⟨j, hj, -⟩
      cases hj
    · rintro ⟨he, -⟩
      exact absurd he hrr

/-- Stands for the comparison of arrays where no two arrays are compared. -/
def noArrays : ArrayDiff := fun _ _ _ => []

/-- A JSON library as far as it is used on one text, and on the text a wrong charset makes of it. -/
def oneText (source : String) (doc : Json) (garbled : String) (garbledDoc : Json) : JsonText where
  write _ := source
  read t := if t = source then some doc else if t = garbled then some garbledDoc else none

/-- An instruction with one node that calls `call`, and its document. -/
def callInstruction (call : String) : Instruction :=
  { Instruction.new Host.bare with trace := some [{ call := some call }] }

def callDocument (call : String) : Json := .obj [("trace", .arr [.obj [("call", .str call)]])]

def callText (call : String) : String := "\x7b\"trace\":[\x7b\"call\":\"" ++ call ++ "\"\x7d]\x7d"

theorem getBody_eq_postBody_iff_sample :
    (∃ j, getBody Host.bare Host.bare noArrays
        (oneText (callText "b:8080") (callDocument "b:8080") "" .null) (callInstruction "b:8080") =
        .ok j ∧ postBody Host.bare (callInstruction "b:8080") = .ok j) ↔
      (∅ : StringMap (Option (List Json))) = ∅ ∧
      (some "stat_count" = some (defaultCollectBy Host.bare) →
        defaultCollectBy Host.bare = defaultCollectBy Host.bare) ∧
      (some (defaultTraceNodeTmpl Host.bare) = some (defaultTraceNodeTmpl Host.bare) →
        defaultTraceNodeTmpl Host.bare = defaultTraceNodeTmpl Host.bare) := by
  have hdoc : (getSimplifiedNode Host.bare noArrays (callInstruction "b:8080")).1 =
      .ok (callDocument "b:8080") := rfl
  refine getBody_eq_postBody_iff Host.bare Host.bare noArrays _ rfl ?_ rfl ?_ ?_
  · intro n hn
    rw [List.mem_singleton.mp hn]
    exact ⟨rfl, rfl, rfl⟩
  · intro j hj
    rw [← Except.ok.inj (hdoc.symm.trans hj)]
    rfl
  · intro j _
    exact (by decide : Host.bare.decodeBytes (utf8 (trim (callText "b:8080"))) = callText "b:8080")

/-- A process with another default of `collectBy`. -/
def listHost : Host Unit :=
  { Host.bare with getProperty := fun k => if k = "defaultCollectBy" then some "list" else none }

/-- The two ways disagree for an inhabited `rr`, for a default that the receiver does not share,
and for a text that the receiver's default charset garbles. -/
theorem getBody_ne_postBody :
    (¬ ∃ j, getBody Host.bare Host.bare noArrays (oneText "" .null "" .null)
        { callInstruction "b:8080" with rr := some (AList.singleton "times" (some [.int 2])) } = .ok j ∧
      postBody Host.bare
        { callInstruction "b:8080" with rr := some (AList.singleton "times" (some [.int 2])) } = .ok j) ∧
    (¬ ∃ j, getBody Host.bare listHost noArrays
        (oneText (callText "b:8080") (callDocument "b:8080") "" .null) (callInstruction "b:8080") =
        .ok j ∧ postBody listHost (callInstruction "b:8080") = .ok j) ∧
    (¬ ∃ j, getBody Host.bare Host.bare noArrays (oneText (callText "é:8080") (callDocument "é:8080")
        (callText "Ã©:8080") (callDocument "Ã©:8080")) (callInstruction "é:8080") = .ok j ∧
      postBody Host.bare (callInstruction "é:8080") = .ok j) := by
  refine ⟨?_, ?_, ?_⟩
  · rintro ⟨j, hj, -⟩
    have hrefused := getBody_refused Host.bare Host.bare noArrays (oneText "" .null "" .null)
      (i := { callInstruction "b:8080" with rr := some (AList.singleton "times" (some [.int 2])) })
      rfl (by simp [PowerTraceNode.HasMaps]) rfl (fun h => by cases congrArg AList.entries h)
    rw [hrefused] at hj
    cases hj
  · rintro ⟨j, hj, hp⟩
    have hget : getBody Host.bare listHost noArrays
        (oneText (callText "b:8080") (callDocument "b:8080") "" .null) (callInstruction "b:8080") =
        .ok { callInstruction "b:8080" with collectBy := some "list" } := rfl
    have hpost : postBody listHost (callInstruction "b:8080") = .ok (callInstruction "b:8080") := rfl
    have heq := Except.ok.inj (hget.symm.trans (hj.trans (hp.symm.trans hpost)))
    exact absurd (congrArg Instruction.collectBy heq) (by decide)
  · rintro ⟨j, hj, hp⟩
    have hget : getBody Host.bare Host.bare noArrays (oneText (callText "é:8080") (callDocument "é:8080")
        (callText "Ã©:8080") (callDocument "Ã©:8080")) (callInstruction "é:8080") =
        .ok (callInstruction "Ã©:8080") := rfl
    have hpost : postBody Host.bare (callInstruction "é:8080") = .ok (callInstruction "é:8080") := rfl
    have heq := Except.ok.inj (hget.symm.trans (hj.trans (hp.symm.trans hpost)))
    have hcall := congrArg (fun i => i.nodes.map PowerTraceNode.call) heq
    exact absurd hcall (by decide)

end Powerful
