import Mathlib
import Powerful.StringRenderer

/-! # The JSON of instructions

How Jackson writes and reads the data classes.  `PowerTraceNode.fields` and
`Instruction.fields` list the properties; `decodeNode` and `decodeInstruction` read them
back, with the class's default for a property that is missing, with the scalar coercions
Jackson applies by default (a number where a text is wanted, a text where a number is
wanted), and with an error for an unknown property if the mapper is `strict`.

The defaults of `collectBy` and `traceNodeTmpl` are those of the reading process: both are
initialised from system properties.  `decodeNode_encode` and `decodeInstruction_encode` are
the round trips. -/

namespace Powerful

variable {ρ : Type}

/-! ### Process defaults -/

def defaultCollectBy (h : Host ρ) : String := (h.getProperty "defaultCollectBy").getD "stat_count"

def defaultTraceNodeTmpl (h : Host ρ) : String :=
  (h.getProperty "defaultTraceNodeTmpl").getD "{{env(APP)}}|{{env(VERSION)}}({{statusCode()}})"

/-- `new Instruction()`. -/
def Instruction.new (h : Host ρ) : Instruction where
  collectBy := some (defaultCollectBy h)
  traceNodeTmpl := some (defaultTraceNodeTmpl h)

/-! ### Writing -/

def ofString : Option String → Json
  | none => .null
  | some s => .str s

def ofInteger : Option Int32 → Json
  | none => .null
  | some n => .int n.toInt

def ofHeaders : Option Headers → Json
  | none => .null
  | some m => .obj (m.entries.map (fun e => (e.1, ofString e.2)))

def ofValues : Option (List Json) → Json
  | none => .null
  | some vs => .arr vs

def ofRr : Option (StringMap (Option (List Json))) → Json
  | none => .null
  | some m => .obj (m.entries.map (fun e => (e.1, ofValues e.2)))

def PowerTraceNode.fields (n : PowerTraceNode) : List (String × Json) :=
  [("call", ofString n.call), ("by", ofString n.by_), ("method", ofString n.method),
    ("code", .int n.code.toInt), ("headers", ofHeaders n.headers),
    ("responseHeaders", ofHeaders n.responseHeaders), ("queries", ofHeaders n.queries),
    ("callTestMethod", ofInteger n.callTestMethod), ("delay", .dbl n.delay),
    ("errorByPercent", ofInteger n.errorByPercent)]

def PowerTraceNode.toJson (n : PowerTraceNode) : Json := .obj n.fields

def ofTrace : Option (List PowerTraceNode) → Json
  | none => .null
  | some ns => .arr (ns.map PowerTraceNode.toJson)

/-- The properties only a `RequestCase` has. -/
def ofCaseInfo : Option CaseInfo → List (String × Json)
  | none => []
  | some c =>
      [("name", ofString c.name), ("description", ofString c.description), ("expect", c.expect)]

/-- The properties of an `Instruction`. -/
def Instruction.fields (i : Instruction) : List (String × Json) :=
  [("trace", ofTrace i.trace), ("times", .int i.times.toInt), ("threads", .int i.threads.toInt),
    ("qps", .int i.qps.toInt), ("propagateHeaders", ofString i.propagateHeaders),
    ("collectBy", ofString i.collectBy), ("traceNodeTmpl", ofString i.traceNodeTmpl),
    ("log", .bool i.log), ("rr", ofRr i.rr)]

def Instruction.toJson (i : Instruction) : Json := .obj (i.fields ++ ofCaseInfo i.caseInfo)

/-! ### Reading -/

def mismatch (type : String) : Exc :=
  .jsonMapping ("Can not deserialize instance of " ++ type)

def asString (h : Host ρ) : Json → Except Exc (Option String)
  | .null => .ok none
  | .str s => .ok (some s)
  | .int n => .ok (some (toString n))
  | .dbl q => .ok (some (h.doubleText q))
  | .bool b => .ok (some (toString b))
  | _ => .error (mismatch "java.lang.String")

/-- An integer node as an `int`, if it fits. -/
def fitInt (n : ℤ) : Except Exc Int32 :=
  if -2147483648 ≤ n ∧ n ≤ 2147483647 then .ok (Int32.ofInt n) else .error (mismatch "int")

/-- `String.trim`. -/
def trim (s : String) : String :=
  String.ofList ((s.toList.dropWhile (fun c => c.toNat ≤ 32)).rdropWhile (fun c => c.toNat ≤ 32))

def asInteger : Json → Except Exc (Option Int32)
  | .null => .ok none
  | .int n => (fitInt n).map some
  | .dbl q => (fitInt (q.num.tdiv q.den)).map some
  | .str s => if trim s = "" ∨ trim s = "null" then .ok none else
      match parseInt (trim s) with
      | .ok n => (fitInt n).map some
      | .error _ => .error (mismatch "java.lang.Integer")
  | _ => .error (mismatch "java.lang.Integer")

/-- A primitive `int`: null is zero. -/
def asInt (j : Json) : Except Exc Int32 := (asInteger j).map (fun n => n.getD 0)

def asDouble (h : Host ρ) : Json → Except Exc ℚ
  | .null => .ok 0
  | .int n => .ok n
  | .dbl q => .ok q
  | .str s => if trim s = "" ∨ trim s = "null" then .ok 0 else
      match h.parseDouble (trim s) with
      | some q => .ok q
      | none => .error (mismatch "double")
  | _ => .error (mismatch "double")

def asBoolean : Json → Except Exc Bool
  | .null => .ok false
  | .bool b => .ok b
  | .int n => .ok (n ≠ 0)
  | .str s =>
      if trim s = "true" ∨ trim s = "True" then .ok true
      else if trim s = "false" ∨ trim s = "False" ∨ trim s = "" ∨ trim s = "null" then .ok false
      else .error (mismatch "boolean")
  | _ => .error (mismatch "boolean")

/-- Read every member of an object as a map entry. -/
def asEntries {α : Type} (conv : Json → Except Exc α) :
    List (String × Json) → Except Exc (List (Sigma fun _ : String => α))
  | [] => .ok []
  | (k, v) :: fs => do
      let a ← conv v
      let es ← asEntries conv fs
      .ok (⟨k, a⟩ :: es)

def asMap {α : Type} (conv : Json → Except Exc α) : Json → Except Exc (Option (StringMap α))
  | .null => .ok none
  | .obj fs => (asEntries conv fs).map (fun es => some es.toAList)
  | _ => .error (mismatch "java.util.LinkedHashMap")

def asHeaders (h : Host ρ) : Json → Except Exc (Option Headers) := asMap (asString h)

def asValues : Json → Except Exc (Option (List Json))
  | .null => .ok none
  | .arr vs => .ok (some vs)
  | _ => .error (mismatch "java.util.ArrayList")

def asRr : Json → Except Exc (Option (StringMap (Option (List Json)))) := asMap asValues

/-- The value of a property, or its default when it is missing. -/
def field {α : Type} (fs : List (String × Json)) (name : String) (default : α)
    (conv : Json → Except Exc α) : Except Exc α :=
  match fs.lookup name with
  | none => .ok default
  | some v => conv v

/-- A strict mapper refuses unknown properties. -/
def checkKnown (strict : Bool) (known : List String) (fs : List (String × Json)) : Except Exc Unit :=
  if strict ∧ ¬ fs.all (fun f => f.1 ∈ known) then .error (.jsonMapping "Unrecognized field")
  else .ok ()

def nodeKeys : List String :=
  ["call", "by", "method", "code", "headers", "responseHeaders", "queries", "callTestMethod",
    "delay", "errorByPercent"]

/-- Read a trace node.  A null element of the list is refused here; in Java it is a null
reference, which fails at its first use. -/
def decodeNode (h : Host ρ) (strict : Bool) : Json → Except Exc PowerTraceNode
  | .obj fs => do
      checkKnown strict nodeKeys fs
      let call ← field fs "call" (some "") (asString h)
      let by_ ← field fs "by" (some "http") (asString h)
      let method ← field fs "method" (some "POST") (asString h)
      let code ← field fs "code" 200 asInt
      let headers ← field fs "headers" (some ∅) (asHeaders h)
      let responseHeaders ← field fs "responseHeaders" (some ∅) (asHeaders h)
      let queries ← field fs "queries" (some ∅) (asHeaders h)
      let callTestMethod ← field fs "callTestMethod" (some 0) asInteger
      let delay ← field fs "delay" 0 (asDouble h)
      let errorByPercent ← field fs "errorByPercent" (some 0) asInteger
      .ok ⟨call, by_, method, code, headers, responseHeaders, queries, callTestMethod, delay,
        errorByPercent⟩
  | _ => .error (mismatch "zhranklin.powerful.model.PowerTraceNode")

def decodeNodes (h : Host ρ) (strict : Bool) : List Json → Except Exc (List PowerTraceNode)
  | [] => .ok []
  | j :: js => do
      let n ← decodeNode h strict j
      let ns ← decodeNodes h strict js
      .ok (n :: ns)

def asTrace (h : Host ρ) (strict : Bool) : Json → Except Exc (Option (List PowerTraceNode))
  | .null => .ok none
  | .arr js => (decodeNodes h strict js).map some
  | _ => .error (mismatch "java.util.ArrayList")

def instructionKeys : List String :=
  ["trace", "times", "threads", "qps", "propagateHeaders", "collectBy", "traceNodeTmpl", "log", "rr"]

/-- Read the properties of an `Instruction`. -/
def decodeFields (h : Host ρ) (strict : Bool) (fs : List (String × Json)) :
    Except Exc Instruction := do
  let trace ← field fs "trace" (some []) (asTrace h strict)
  let times ← field fs "times" 1 asInt
  let threads ← field fs "threads" 1 asInt
  let qps ← field fs "qps" 0 asInt
  let propagateHeaders ← field fs "propagateHeaders" (some "") (asString h)
  let collectBy ← field fs "collectBy" (some (defaultCollectBy h)) (asString h)
  let traceNodeTmpl ← field fs "traceNodeTmpl" (some (defaultTraceNodeTmpl h)) (asString h)
  let log ← field fs "log" true asBoolean
  let rr ← field fs "rr" (some ∅) asRr
  .ok ⟨trace, times, threads, qps, propagateHeaders, collectBy, traceNodeTmpl, log, rr, none⟩

/-- `readValue(…, Instruction.class)`. -/
def decodeInstruction (h : Host ρ) (strict : Bool) : Json → Except Exc Instruction
  | .obj fs => do
      checkKnown strict instructionKeys fs
      decodeFields h strict fs
  | _ => .error (mismatch "zhranklin.powerful.model.Instruction")

def caseKeys : List String := ["name", "description", "expect"]

/-- `readValue(…, RequestCase.class)`. -/
def decodeRequestCase (h : Host ρ) (strict : Bool) : Json → Except Exc Instruction
  | .obj fs => do
      checkKnown strict (instructionKeys ++ caseKeys) fs
      let i ← decodeFields h strict fs
      let name ← field fs "name" none (asString h)
      let description ← field fs "description" none (asString h)
      let expect ← field fs "expect" .null .ok
      .ok { i with caseInfo := some ⟨name, description, expect⟩ }
  | _ => .error (mismatch "zhranklin.powerful.core.cases.RequestCase")

/-! ### Round trips -/

theorem asString_ofString (h : Host ρ) (s : Option String) : asString h (ofString s) = .ok s := by
  cases s <;> rfl

theorem ofString_injective {s t : Option String} (h : ofString s = ofString t) : s = t := by
  cases s <;> cases t <;> simp_all [ofString]

theorem fitInt_toInt (n : Int32) : fitInt n.toInt = .ok n := by
  have h₁ := n.le_toInt
  have h₂ := n.toInt_lt
  unfold fitInt
  rw [if_pos (by constructor <;> omega), Int32.ofInt_toInt]

theorem asInteger_ofInteger (n : Option Int32) : asInteger (ofInteger n) = .ok n := by
  cases n with
  | none => rfl
  | some n => simp [ofInteger, asInteger, fitInt_toInt, Except.map]

theorem ofInteger_injective {m n : Option Int32} (h : ofInteger m = ofInteger n) : m = n := by
  have hm := asInteger_ofInteger m
  rw [h, asInteger_ofInteger] at hm
  simpa using hm.symm

theorem asInt_toInt (n : Int32) : asInt (.int n.toInt) = .ok n := by
  simp [asInt, asInteger, fitInt_toInt, Except.map]

theorem asEntries_map {α : Type} {conv : Json → Except Exc α} {enc : α → Json}
    (hc : ∀ a, conv (enc a) = .ok a) (es : List (Sigma fun _ : String => α)) :
    asEntries conv (es.map (fun e => (e.1, enc e.2))) = .ok es := by
  induction es with
  | nil => rfl
  | cons e es ih => simp [asEntries, hc, ih, bind, Except.bind]

theorem toAList_entries {α : Type} (m : StringMap α) : m.entries.toAList = m := by
  obtain ⟨es, hn⟩ := m
  apply AList.ext
  rw [AList.entries_toAList]
  simp only
  induction es with
  | nil => rfl
  | cons e es ih =>
      have hk := List.nodupKeys_cons.mp hn
      rw [List.dedupKeys_cons, ih hk.2, List.kinsert_def, List.kerase_of_notMem_keys hk.1]

theorem asMap_obj {α : Type} {conv : Json → Except Exc α} {enc : α → Json}
    (hc : ∀ a, conv (enc a) = .ok a) (m : StringMap α) :
    asMap conv (.obj (m.entries.map (fun e => (e.1, enc e.2)))) = .ok (some m) := by
  simp [asMap, asEntries_map hc, Except.map, toAList_entries]

theorem asHeaders_ofHeaders (h : Host ρ) (m : Option Headers) :
    asHeaders h (ofHeaders m) = .ok m := by
  cases m with
  | none => rfl
  | some m => exact asMap_obj (asString_ofString h) m

theorem asValues_ofValues (vs : Option (List Json)) : asValues (ofValues vs) = .ok vs := by
  cases vs <;> rfl

theorem asRr_ofRr (m : Option (StringMap (Option (List Json)))) : asRr (ofRr m) = .ok m := by
  cases m with
  | none => rfl
  | some m => exact asMap_obj asValues_ofValues m

theorem nodeKeys_eq (n : PowerTraceNode) : n.fields.map Prod.fst = nodeKeys := rfl

theorem nodeKeys_nodup : nodeKeys.Nodup := by decide

theorem instructionKeys_nodup : instructionKeys.Nodup := by decide

/-- A property read from the difference of two objects: the default where both agree, and
else the value of the second object. -/
theorem field_differing_eq {α : Type} {fs gs : List (String × Json)} (hn : (gs.map Prod.fst).Nodup)
    {k : String} {w : Json} {d x : α} {conv : Json → Except Exc α} (hg : gs.lookup k = some w)
    (hc : conv w = .ok x) :
    field (Json.differing fs gs) k d conv = .ok (if fs.lookup k = some w then d else x) := by
  unfold field
  rw [Json.lookup_differing hn, hg, Option.bind_some]
  by_cases hw : fs.lookup k = some w
  · rw [if_pos hw, if_pos hw]
  · rw [if_neg hw, if_neg hw]
    exact hc

/-- The value of the second object is read if that is what the default stands for where both
agree. -/
theorem field_differing {α : Type} {fs gs : List (String × Json)} (hn : (gs.map Prod.fst).Nodup)
    {k : String} {w : Json} {d x : α} {conv : Json → Except Exc α} (hg : gs.lookup k = some w)
    (hc : conv w = .ok x) (hd : fs.lookup k = some w → d = x) :
    field (Json.differing fs gs) k d conv = .ok x := by
  rw [field_differing_eq hn hg hc]
  by_cases hw : fs.lookup k = some w
  · rw [if_pos hw, hd hw]
  · rw [if_neg hw]

theorem checkKnown_of_subset {strict : Bool} {known : List String} {fs : List (String × Json)}
    (h : ∀ f ∈ fs, f.1 ∈ known) : checkKnown strict known fs = .ok () := by
  unfold checkKnown
  rw [if_neg]
  rintro ⟨-, hall⟩
  exact hall (List.all_eq_true.mpr (fun f hf => by simpa using h f hf))

theorem field_of_lookup {α : Type} {fs : List (String × Json)} {k : String} {w : Json} {d x : α}
    {conv : Json → Except Exc α} (hl : fs.lookup k = some w) (hc : conv w = .ok x) :
    field fs k d conv = .ok x := by
  unfold field
  rw [hl]
  exact hc

theorem asBoolean_bool (b : Bool) : asBoolean (.bool b) = .ok b := rfl

theorem asDouble_dbl (h : Host ρ) (q : ℚ) : asDouble h (.dbl q) = .ok q := rfl

/-- **Round trip** of a trace node. -/
theorem decodeNode_encode (h : Host ρ) (strict : Bool) (n : PowerTraceNode) :
    decodeNode h strict n.toJson = .ok n := by
  have hknown : ∀ f ∈ n.fields, f.1 ∈ nodeKeys := by
    intro f hf
    rw [← nodeKeys_eq n]
    exact List.mem_map_of_mem hf
  have hl : ∀ (k : String) {w : Json}, n.fields.lookup k = some w →
      ∀ {α : Type} {d x : α} {conv : Json → Except Exc α}, conv w = .ok x →
        field n.fields k d conv = .ok x := fun _ _ hk _ _ _ _ hc => field_of_lookup hk hc
  unfold PowerTraceNode.toJson decodeNode
  simp only [bind, Except.bind, checkKnown_of_subset hknown,
    hl "call" rfl (asString_ofString h n.call), hl "by" rfl (asString_ofString h n.by_), hl "method" rfl (asString_ofString h n.method),
    hl "code" rfl (asInt_toInt n.code), hl "headers" rfl (asHeaders_ofHeaders h n.headers),
    hl "responseHeaders" rfl (asHeaders_ofHeaders h n.responseHeaders),
    hl "queries" rfl (asHeaders_ofHeaders h n.queries),
    hl "callTestMethod" rfl (asInteger_ofInteger n.callTestMethod),
    hl "delay" rfl (asDouble_dbl h n.delay), hl "errorByPercent" rfl (asInteger_ofInteger n.errorByPercent)]

theorem decodeNodes_encode (h : Host ρ) (strict : Bool) (ns : List PowerTraceNode) :
    decodeNodes h strict (ns.map PowerTraceNode.toJson) = .ok ns := by
  induction ns with
  | nil => rfl
  | cons n ns ih =>
      rw [List.map_cons]
      unfold decodeNodes
      rw [decodeNode_encode, ih]
      rfl

theorem asTrace_ofTrace (h : Host ρ) (strict : Bool) (ns : Option (List PowerTraceNode)) :
    asTrace h strict (ofTrace ns) = .ok ns := by
  cases ns with
  | none => rfl
  | some ns =>
      simp only [ofTrace, asTrace, decodeNodes_encode, Except.map]

/-- **Round trip** of an instruction; what only a case has is dropped. -/
theorem decodeInstruction_encode (h : Host ρ) (i : Instruction) :
    decodeInstruction h false i.toJson = .ok { i with caseInfo := none } := by
  have hl : ∀ (k : String) {w : Json}, i.fields.lookup k = some w →
      ∀ {α : Type} {d x : α} {conv : Json → Except Exc α}, conv w = .ok x →
        field (i.fields ++ ofCaseInfo i.caseInfo) k d conv = .ok x := by
    intro k w hk α d x conv hc
    exact field_of_lookup (by rw [List.lookup_append, hk]; rfl) hc
  unfold Instruction.toJson decodeInstruction decodeFields checkKnown
  simp only [Bool.false_eq_true, false_and, if_false, bind, Except.bind,
    hl "trace" rfl (asTrace_ofTrace h false i.trace), hl "times" rfl (asInt_toInt i.times),
    hl "threads" rfl (asInt_toInt i.threads), hl "qps" rfl (asInt_toInt i.qps),
    hl "propagateHeaders" rfl (asString_ofString h i.propagateHeaders),
    hl "collectBy" rfl (asString_ofString h i.collectBy),
    hl "traceNodeTmpl" rfl (asString_ofString h i.traceNodeTmpl), hl "log" rfl (asBoolean_bool i.log),
    hl "rr" rfl (asRr_ofRr i.rr)]

/-- Whether the default of a node's map stands for the map of `n` where both agree. -/
def MapDefault (base n : Option Headers) : Prop := ofHeaders base = ofHeaders n → n = some ∅

/-- Reading the difference of a node `n` from a node `base` that has the class's defaults,
except for its maps, gives `n` back. -/
theorem decodeNode_differing (h : Host ρ) (strict : Bool) {n base : PowerTraceNode}
    (hb : base = { headers := base.headers, responseHeaders := base.responseHeaders,
                   queries := base.queries })
    (hh : MapDefault base.headers n.headers)
    (hr : MapDefault base.responseHeaders n.responseHeaders)
    (hq : MapDefault base.queries n.queries) :
    decodeNode h strict (.obj (Json.differing base.fields n.fields)) = .ok n := by
  have hn : (n.fields.map Prod.fst).Nodup := by rw [nodeKeys_eq]; exact nodeKeys_nodup
  have hknown : ∀ f ∈ Json.differing base.fields n.fields, f.1 ∈ nodeKeys := by
    intro f hf
    rw [← nodeKeys_eq n]
    exact List.mem_map_of_mem (List.mem_filter.mp hf).1
  have hcall : field (Json.differing base.fields n.fields) "call" (some "") (asString h) =
      .ok n.call := by
    refine field_differing hn rfl (asString_ofString h n.call) (fun hw => ?_)
    have hbase : base.call = some "" := by rw [hb]
    rw [← hbase]
    exact ofString_injective (Option.some.inj hw)
  have hby : field (Json.differing base.fields n.fields) "by" (some "http") (asString h) =
      .ok n.by_ := by
    refine field_differing hn rfl (asString_ofString h n.by_) (fun hw => ?_)
    have hbase : base.by_ = some "http" := by rw [hb]
    rw [← hbase]
    exact ofString_injective (Option.some.inj hw)
  have hmethod : field (Json.differing base.fields n.fields) "method" (some "POST") (asString h) =
      .ok n.method := by
    refine field_differing hn rfl (asString_ofString h n.method) (fun hw => ?_)
    have hbase : base.method = some "POST" := by rw [hb]
    rw [← hbase]
    exact ofString_injective (Option.some.inj hw)
  have hcode : field (Json.differing base.fields n.fields) "code" 200 asInt = .ok n.code := by
    refine field_differing hn rfl (asInt_toInt n.code) (fun hw => ?_)
    have hbase : base.code = 200 := by rw [hb]
    rw [← hbase]
    exact Int32.toInt_inj.mp (Json.int.inj (Option.some.inj hw))
  have hheaders : field (Json.differing base.fields n.fields) "headers" (some ∅) (asHeaders h) =
      .ok n.headers :=
    field_differing hn rfl (asHeaders_ofHeaders h n.headers)
      (fun hw => (hh (Option.some.inj hw)).symm)
  have hresponse : field (Json.differing base.fields n.fields) "responseHeaders" (some ∅)
      (asHeaders h) = .ok n.responseHeaders :=
    field_differing hn rfl (asHeaders_ofHeaders h n.responseHeaders)
      (fun hw => (hr (Option.some.inj hw)).symm)
  have hqueries : field (Json.differing base.fields n.fields) "queries" (some ∅) (asHeaders h) =
      .ok n.queries :=
    field_differing hn rfl (asHeaders_ofHeaders h n.queries)
      (fun hw => (hq (Option.some.inj hw)).symm)
  have htest : field (Json.differing base.fields n.fields) "callTestMethod" (some 0) asInteger =
      .ok n.callTestMethod := by
    refine field_differing hn rfl (asInteger_ofInteger n.callTestMethod) (fun hw => ?_)
    have hbase : base.callTestMethod = some 0 := by rw [hb]
    rw [← hbase]
    exact ofInteger_injective (Option.some.inj hw)
  have hdelay : field (Json.differing base.fields n.fields) "delay" 0 (asDouble h) =
      .ok n.delay := by
    refine field_differing hn rfl (asDouble_dbl h n.delay)
      (fun hw => ?_)
    have hbase : base.delay = 0 := by rw [hb]
    rw [← hbase]
    exact Json.dbl.inj (Option.some.inj hw)
  have herror : field (Json.differing base.fields n.fields) "errorByPercent" (some 0) asInteger =
      .ok n.errorByPercent := by
    refine field_differing hn rfl (asInteger_ofInteger n.errorByPercent) (fun hw => ?_)
    have hbase : base.errorByPercent = some 0 := by rw [hb]
    rw [← hbase]
    exact ofInteger_injective (Option.some.inj hw)
  simp only [decodeNode, bind, Except.bind, checkKnown_of_subset hknown, hcall, hby, hmethod,
    hcode, hheaders, hresponse, hqueries, htest, hdelay, herror]

end Powerful
