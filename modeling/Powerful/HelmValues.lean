import Mathlib
import Powerful.NestedLayers
import Powerful.SpecWrites

/-! # The values of a Helm release

`NewManager` merges three nested maps into the values of the chart: the overlay file, if it can be
read, the spec of the custom resource, and the override values.  `mergeMaps` copies the first map
and puts the entries of the second one into it; where both have a map under a key these are merged
in turn.

A Go map has every key once, at each level: `Values` carries that.  `layer_mergeMaps` says that
`mergeMaps` lays the second map over the first one, and `values_layered` what follows for the three
maps. -/

namespace Powerful.Helm

open NestedLayers

/-! ### Nested maps -/

mutual

/-- Every map below the value has its keys once; arrays are not looked into. -/
def DistinctKeys : Json → Prop
  | .obj fs => (fs.map Prod.fst).Nodup ∧ DistinctFields fs
  | _ => True

def DistinctFields : Fields → Prop
  | [] => True
  | (_, v) :: fs => DistinctKeys v ∧ DistinctFields fs

end

/-- A `map[string]interface{}`. -/
structure Values where
  fields : Fields
  distinct : DistinctKeys (.obj fields)

theorem distinct_lookup : ∀ {fs : Fields} {k : String} {v : Json}, DistinctFields fs →
    fs.lookup k = some v → DistinctKeys v
  | [], _, _, _, h => by cases h
  | (l, w) :: fs, k, v, hdistinct, h => by
      by_cases hk : k = l
      · rw [hk, Json.lookup_cons_self] at h
        obtain rfl := Option.some.inj h
        exact hdistinct.1
      · rw [Json.lookup_cons_ne hk] at h
        exact distinct_lookup hdistinct.2 h

/-! ### Merging -/

mutual

/-- What stands under a key behind the merge, where `old` stood before. -/
def mergeValue (old : Option Json) : Json → Json
  | .obj v => match old with
    | some (.obj bv) => .obj (mergeInto bv v)
    | _ => .obj v
  | v => v

/-- Put the entries of `b` into `out`, one after the other. -/
def mergeInto (out : Fields) : Fields → Fields
  | [] => out
  | (k, v) :: b => mergeInto (Json.putField k (mergeValue (out.lookup k) v) out) b

end

/-- Behind the merge a key has the merged value, or what it had before. -/
theorem lookup_mergeInto : ∀ (b out : Fields) (k : String), (b.map Prod.fst).Nodup →
    (mergeInto out b).lookup k = ((b.lookup k).map (mergeValue (out.lookup k))).or (out.lookup k)
  | [], out, k, _ => by rw [mergeInto]; rfl
  | (l, v) :: b, out, k, hnodup => by
      rw [List.map_cons, List.nodup_cons] at hnodup
      rw [mergeInto, lookup_mergeInto b _ k hnodup.2]
      by_cases hk : k = l
      · rw [hk, Json.lookup_eq_none_of_notMem hnodup.1, Json.lookup_putField_self,
          Json.lookup_cons_self]
        rfl
      · rw [Json.lookup_putField_ne hk, Json.lookup_cons_ne hk]

theorem keys_putField (k : String) (v : Json) : ∀ fs : Fields, (Json.putField k v fs).map Prod.fst =
    if k ∈ fs.map Prod.fst then fs.map Prod.fst else fs.map Prod.fst ++ [k]
  | [] => rfl
  | (l, w) :: fs => by
      rw [Json.putField]
      by_cases hl : l = k
      · rw [if_pos hl, List.map_cons, List.map_cons, hl, if_pos List.mem_cons_self]
      · rw [if_neg hl, List.map_cons, List.map_cons, keys_putField k v fs]
        by_cases hk : k ∈ fs.map Prod.fst
        · rw [if_pos hk, if_pos (List.mem_cons_of_mem l hk)]
        · have hnot : k ∉ l :: fs.map Prod.fst := by
            rw [List.mem_cons, not_or]
            exact ⟨Ne.symm hl, hk⟩
          rw [if_neg hk, if_neg hnot, List.cons_append]

theorem distinctFields_putField {k : String} {v : Json} (hv : DistinctKeys v) : ∀ {fs : Fields},
    DistinctFields fs → DistinctFields (Json.putField k v fs)
  | [], _ => ⟨hv, trivial⟩
  | (l, w) :: fs, h => by
      rw [Json.putField]
      split
      · exact ⟨hv, h.2⟩
      · exact ⟨h.1, distinctFields_putField hv h.2⟩

theorem distinct_putField {k : String} {v : Json} (hv : DistinctKeys v) {fs : Fields}
    (h : DistinctKeys (.obj fs)) : DistinctKeys (.obj (Json.putField k v fs)) := by
  refine ⟨?_, distinctFields_putField hv h.2⟩
  rw [keys_putField]
  split
  · exact h.1
  · rename_i hk
    exact List.nodup_append.mpr ⟨h.1, List.nodup_singleton k, fun l hl m hm heq =>
      hk (by rw [← List.mem_singleton.mp hm, ← heq]; exact hl)⟩

mutual

/-- The merge keeps the keys distinct. -/
theorem distinct_mergeValue : ∀ (v : Json) {old : Option Json}, (∀ bv, old = some bv → DistinctKeys bv) →
    DistinctKeys v → DistinctKeys (mergeValue old v)
  | .obj v, some (.obj bv), hold, hv => distinct_mergeInto v (hold (.obj bv) rfl) hv.2
  | .obj _, none, _, hv => hv
  | .obj _, some .null, _, hv | .obj _, some (.bool _), _, hv | .obj _, some (.int _), _, hv
  | .obj _, some (.dbl _), _, hv | .obj _, some (.str _), _, hv | .obj _, some (.arr _), _, hv => hv
  | .null, _, _, _ | .bool _, _, _, _ | .int _, _, _, _ | .dbl _, _, _, _ | .str _, _, _, _
  | .arr _, _, _, _ => trivial

theorem distinct_mergeInto : ∀ (b : Fields) {out : Fields}, DistinctKeys (.obj out) →
    DistinctFields b → DistinctKeys (.obj (mergeInto out b))
  | [], out, hout, _ => by
      rw [mergeInto]
      exact hout
  | (k, v) :: b, out, hout, hb => by
      rw [mergeInto]
      refine distinct_mergeInto b (distinct_putField ?_ hout) hb.2
      exact distinct_mergeValue v (fun bv hbv => distinct_lookup hout.2 hbv) hb.1

end

/-- Merge two maps into a new one. -/
def mergeMaps (a b : Values) : Values where
  fields := mergeInto a.fields b.fields
  distinct := distinct_mergeInto b.fields a.distinct b.distinct.2

/-! ### Layers -/

/-- A map, or a value that is none; null and an array are such values. -/
def entryOf : Json → Entry Json
  | .obj _ => .map
  | v => .value v

/-- What is at each path below a value that may be missing. -/
def shapeOf (v : Option Json) : Shape String Json := fun p => (v.bind (nested p)).map entryOf

theorem shapeOf_append (v : Option Json) (p q : List String) :
    shapeOf v (p ++ q) = shapeOf (v.bind (nested p)) q := by
  unfold shapeOf
  rw [Option.bind_assoc]
  exact congrArg (fun f => (v.bind f).map entryOf) (funext (nested_append p q))

theorem shapeOf_eq_map_iff {v : Option Json} {p : List String} :
    shapeOf v p = some .map ↔ ∃ fs, v.bind (nested p) = some (.obj fs) := by
  unfold shapeOf
  cases v.bind (nested p) with
  | none => simp
  | some w => cases w <;> simp [entryOf]

/-- Only a map has something below it. -/
theorem shapeOf_below {v : Option Json} {p q : List String} (hq : q ≠ [])
    (h : (shapeOf v (p ++ q)).isSome) : shapeOf v p = some .map := by
  rw [shapeOf_eq_map_iff]
  rw [shapeOf_append] at h
  obtain ⟨k, q, rfl⟩ := List.exists_cons_of_ne_nil hq
  unfold shapeOf at h
  cases hv : v.bind (nested p) with
  | none =>
      rw [hv] at h
      cases h
  | some w =>
      rw [hv] at h
      cases w with
      | obj fs => exact ⟨fs, rfl⟩
      | _ => cases h

theorem shapeOf_of_hides {v : Option Json} {p : List String} (h : (shapeOf v).Hides p) :
    shapeOf v p = none := by
  obtain ⟨q, a, ⟨r, rfl⟩, hne, hvalue⟩ := h
  by_contra hsome
  have hr : r ≠ [] := by
    rintro rfl
    exact hne (List.append_nil q).symm
  rw [shapeOf_below hr (Option.isSome_iff_ne_none.mpr hsome)] at hvalue
  cases hvalue

/-- The nested map of a map. -/
def Values.layer (v : Values) : Layer String Json where
  entry := shapeOf (some (.obj v.fields))
  root := rfl
  through _ k := shapeOf_below (List.cons_ne_nil k [])

theorem shapeOf_obj_cons (fs : Fields) (k : String) :
    (fun q => shapeOf (some (.obj fs)) (k :: q)) = shapeOf (fs.lookup k) := rfl

theorem layOver_shapeOf_none (v : Option Json) : (shapeOf none).layOver (shapeOf v) = shapeOf v := by
  refine funext fun p => if_neg ?_
  rintro ⟨q, a, -, -, hvalue⟩
  cases hvalue

theorem shapeOf_layOver_none (v : Option Json) : (shapeOf v).layOver (shapeOf none) = shapeOf v := by
  funext p
  unfold Shape.layOver
  split
  · rename_i hhides
    exact (shapeOf_of_hides hhides).symm
  · exact Option.or_none

/-- A value that is no map takes the place of what was there. -/
theorem mergeValue_of_value {v : Json} (old : Option Json) (h : ∀ fs, v ≠ .obj fs) : mergeValue old v = v := by
  cases v with
  | obj fs => exact absurd rfl (h fs)
  | _ => rfl

/-- A map takes the place of what was there if that is no map. -/
theorem mergeValue_of_map {old : Option Json} (fs : Fields) (h : ∀ bv, old ≠ some (.obj bv)) :
    mergeValue old (.obj fs) = .obj fs := by
  unfold mergeValue
  split
  · rename_i bv
    exact absurd rfl (h bv)
  · rfl

theorem entryOf_mergeValue (old : Option Json) (v : Json) : entryOf (mergeValue old v) = entryOf v := by
  cases v with
  | obj fs =>
      by_cases hold : ∃ bv, old = some (.obj bv)
      · obtain ⟨bv, rfl⟩ := hold
        rfl
      · rw [mergeValue_of_map fs fun bv hbv => hold ⟨bv, hbv⟩]
  | _ => rfl

/-- A value is merged by laying it over what was there; the induction is on the path. -/
theorem shapeOf_mergeValue : ∀ (p : List String) (old : Option Json) {v : Json}, DistinctKeys v →
    shapeOf (some (mergeValue old v)) p = (shapeOf (some v)).layOver (shapeOf old) p
  | [], old, v, _ => by
      rw [Shape.layOver_nil]
      exact congrArg some (entryOf_mergeValue old v)
  | k :: p, old, v, hv => by
      by_cases hmap : ∃ fs, v = .obj fs
      · obtain ⟨fs, rfl⟩ := hmap
        rw [Shape.layOver_cons_of_map rfl, shapeOf_obj_cons]
        by_cases hold : ∃ bv, old = some (.obj bv)
        · obtain ⟨bv, rfl⟩ := hold
          rw [shapeOf_obj_cons]
          show shapeOf ((mergeInto bv fs).lookup k) p = _
          rw [lookup_mergeInto fs bv k hv.1]
          cases hlookup : fs.lookup k with
          | none => rw [layOver_shapeOf_none]; rfl
          | some w => exact shapeOf_mergeValue p (bv.lookup k) (distinct_lookup hv.2 hlookup)
        · have hnone : (fun q => shapeOf old (k :: q)) = shapeOf none := by
            funext q
            cases old with
            | none => rfl
            | some w =>
                cases w with
                | obj bv => exact absurd ⟨bv, rfl⟩ hold
                | _ => rfl
          rw [mergeValue_of_map fs fun bv hbv => hold ⟨bv, hbv⟩, hnone, shapeOf_layOver_none]
          rfl
      · have hvalue : entryOf v = .value v := by
          cases v with
          | obj fs => exact absurd ⟨fs, rfl⟩ hmap
          | _ => rfl
        rw [mergeValue_of_value old fun fs hfs => hmap ⟨fs, hfs⟩,
          Shape.layOver_cons_of_value (congrArg some hvalue)]
        cases v with
        | obj fs => exact absurd ⟨fs, rfl⟩ hmap
        | _ => rfl

/-- `mergeMaps` lays its second map over the first one. -/
theorem layer_mergeMaps (a b : Values) : (mergeMaps a b).layer = b.layer.layOver a.layer :=
  Layer.ext (funext fun p => shapeOf_mergeValue p (some (.obj a.fields)) b.distinct)

/-! ### The values of a manager -/

def Values.empty : Values where
  fields := []
  distinct := ⟨List.nodup_nil, trivial⟩

/-- What `NewManager` calls: the file system, the YAML and JSON readers and the reader of overrides,
which writes into the map that it is given. -/
structure ManagerFactory where
  readFile : String → Except GoError String
  yamlToJSON : String → Except GoError String
  unmarshal : String → Option Values
  parseIntoString : String → Values → Except GoError Values

namespace ManagerFactory
variable (f : ManagerFactory)

/-- The spec of a custom resource, if it is a map. -/
def crValues (object : Values) : Option Values :=
  match hspec : object.fields.lookup "spec" with
  | some (.obj fs) => some ⟨fs, distinct_lookup object.distinct.2 hspec⟩
  | _ => none

/-- The overlay file; one that cannot be read is skipped. -/
def overlayValues : Except GoError (Option Values) :=
  match f.readFile "helm-charts/powerful/values-overlay.yaml" with
  | .error _ => .ok none
  | .ok overlayYaml => match f.yamlToJSON overlayYaml with
    | .error _ => .error { message := "failed to parse overlay file" }
    | .ok overlayJson => match f.unmarshal overlayJson with
      | none => .error { message := "failed to parse overlay file" }
      | some overlay => .ok (some overlay)

/-- The overrides, in the order in which the map is iterated over. -/
def parseOverrides (overrideValues : List (String × String)) : Except GoError Values :=
  overrideValues.foldlM (fun out kv => f.parseIntoString (kv.1 ++ "=" ++ kv.2) out) Values.empty

/-- The values that `NewManager` puts into the manager. -/
def values (object : Values) (overrideValues : List (String × String)) : Except GoError Values := do
  match crValues object with
  | none => .error { message := "failed to get spec: expected map[string]interface\x7b\x7d" }
  | some crValues =>
      let crValues := match ← f.overlayValues with
        | none => crValues
        | some overlay => mergeMaps overlay crValues
      match f.parseOverrides overrideValues with
      | .error err => .error { message := "failed to parse override values: " ++ err.message }
      | .ok expOverrides => .ok (mergeMaps crValues expOverrides)

/-- **Precedence**: the values are those of the overrides, the spec and the overlay, in this order. -/
theorem values_layered {object spec overrides : Values} {overlay : Option Values}
    {overrideValues : List (String × String)} (hspec : crValues object = some spec)
    (hoverlay : f.overlayValues = .ok overlay) (hoverrides : f.parseOverrides overrideValues = .ok overrides) :
    ∃ values, f.values object overrideValues = .ok values ∧
      Layer.Obeys (overrides.layer :: spec.layer :: (overlay.map Values.layer).toList) values.layer := by
  have hvalues : f.values object overrideValues =
      .ok (mergeMaps (overlay.elim spec fun overlay => mergeMaps overlay spec) overrides) := by
    unfold values
    rw [hspec, hoverlay]
    cases overlay <;> simp only [hoverrides] <;> rfl
  refine ⟨_, hvalues, ?_⟩
  have hstack : (mergeMaps (overlay.elim spec fun overlay => mergeMaps overlay spec) overrides).layer =
      Layer.stack (overrides.layer :: spec.layer :: (overlay.map Values.layer).toList) := by
    rw [layer_mergeMaps]
    cases overlay with
    | none => exact congrArg overrides.layer.layOver spec.layer.layOver_empty.symm
    | some overlay =>
        show overrides.layer.layOver (mergeMaps overlay spec).layer = _
        rw [layer_mergeMaps]
        exact congrArg (fun l => overrides.layer.layOver (spec.layer.layOver l)) overlay.layer.layOver_empty.symm
  rw [hstack]
  exact Layer.stack_obeys _

/-! ### Three maps -/

def overlaySample : Values where
  fields := [("image", .obj [("tag", .str "v1"), ("pull", .bool true)]), ("env", .obj [("A", .int 1)])]
  distinct := by simp [DistinctKeys, DistinctFields]

def specSample : Values where
  fields := [("env", .null), ("image", .obj [("tag", .str "v2")])]
  distinct := by simp [DistinctKeys, DistinctFields]

def overrideSample : Values where
  fields := [("image", .obj [("tag", .str "v3")])]
  distinct := by simp [DistinctKeys, DistinctFields]

def resourceSample : Values where
  fields := [("kind", .str "Powerful"), ("spec", .obj specSample.fields)]
  distinct := by simp [DistinctKeys, DistinctFields, specSample]

/-- A factory whose chart has an overlay file. -/
def sample : ManagerFactory where
  readFile path := if path = "helm-charts/powerful/values-overlay.yaml" then
      .ok "image: \x7btag: v1, pull: true\x7d\nenv: \x7bA: 1\x7d"
    else .error { message := "open " ++ path ++ ": no such file or directory" }
  yamlToJSON text := if text = "image: \x7btag: v1, pull: true\x7d\nenv: \x7bA: 1\x7d" then
      .ok "\x7b\"env\":\x7b\"A\":1\x7d,\"image\":\x7b\"pull\":true,\"tag\":\"v1\"\x7d\x7d"
    else .error {}
  unmarshal text :=
    if text = "\x7b\"env\":\x7b\"A\":1\x7d,\"image\":\x7b\"pull\":true,\"tag\":\"v1\"\x7d\x7d" then
      some overlaySample
    else none
  parseIntoString text out := if text = "image.tag=v3" then .ok (mergeMaps out overrideSample) else .error {}

/-- The tag of the overrides, the null of the spec, and what only the overlay has. -/
example : (mergeMaps (mergeMaps overlaySample specSample) overrideSample).fields =
    [("image", .obj [("tag", .str "v3"), ("pull", .bool true)]), ("env", .null)] := rfl

theorem values_layered_sample : ∃ values, sample.values resourceSample [("image.tag", "v3")] = .ok values ∧
    Layer.Obeys [overrideSample.layer, specSample.layer, overlaySample.layer] values.layer := by
  have hoverlay : sample.overlayValues = .ok (some overlaySample) := rfl
  exact sample.values_layered rfl hoverlay rfl

end ManagerFactory

end Powerful.Helm
