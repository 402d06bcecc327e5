import AdapterWs.Lib.JsonText
import AdapterWs.Wire.Value

/-!
# The JSON text of a value

`JSON.stringify`: what JSON keeps of a value, written. The bytes of an object are those of its
names, its values, a colon and a comma for each, and the braces, less the comma that the last
property does not have.
-/

namespace AdapterWs.Wire

open JsString OwnProperties List

namespace Value

mutual

/-- The text of what JSON keeps of a value. -/
def text : Value → JsString
  | .bool b => if b then lit "true" else lit "false"
  | .number x => jsonNumber x
  | .string s => quote s
  | .array elems => lit "[" ++ ((lit ",").intercalate (textElems elems) ++ lit "]")
  | .object props => lit "\x7b" ++ ((lit ",").intercalate (textProps props) ++ lit "\x7d")
  | _ => lit "null"

/-- The texts of elements. -/
def textElems : List Value → List JsString
  | [] => []
  | v :: vs => v.text :: textElems vs

/-- The texts of properties. -/
def textProps : List (JsString × Value) → List JsString
  | [] => []
  | (key, v) :: props => (quote key ++ (lit ":" ++ v.text)) :: textProps props

end

/-- `JSON.stringify(v)`. -/
def stringify (v : Value) : Option JsString := v.jsonView.map text

/-- `Buffer.byteLength(JSON.stringify(v) ?? '')`. -/
def bytes (v : Value) : ℕ := byteLength (v.stringify.getD [])

mutual

/-- How many arrays and objects stand inside each other. -/
def depth : Value → ℕ
  | .array elems => depthElems elems + 1
  | .object props => depthProps props + 1
  | _ => 0

/-- The depth of the deepest element. -/
def depthElems : List Value → ℕ
  | [] => 0
  | v :: vs => max v.depth (depthElems vs)

/-- The depth of the deepest property. -/
def depthProps : List (JsString × Value) → ℕ
  | [] => 0
  | (_, v) :: props => max v.depth (depthProps props)

end

mutual

/-- A JSON value: what `JSON.parse` gives. -/
def isJson : Value → Bool
  | .null | .bool _ | .string _ => true
  | .number x => x.isFinite
  | .array elems => isJsonElems elems
  | .object props => decide (props.map Prod.fst).Nodup && isJsonProps props
  | _ => false

/-- The elements are JSON values. -/
def isJsonElems : List Value → Bool
  | [] => true
  | v :: vs => v.isJson && isJsonElems vs

/-- The properties are JSON values. -/
def isJsonProps : List (JsString × Value) → Bool
  | [] => true
  | (_, v) :: props => v.isJson && isJsonProps props

end

variable {props : List (JsString × Value)}

theorem isJsonProps_iff : isJsonProps props = true ↔ ∀ p ∈ props, p.2.isJson = true := by
  induction props with
  | nil => simp [isJsonProps]
  | cons p props ih =>
    obtain ⟨key, v⟩ := p
    rw [isJsonProps, Bool.and_eq_true, ih, forall_mem_cons]

theorem toJSONMethod_of_isJsonProps (h : ∀ p ∈ props, p.2.isJson = true) :
    toJSONMethod props = none := by
  induction props with
  | nil => rfl
  | cons p props ih =>
    obtain ⟨key, v⟩ := p
    have hv := h _ (.head _)
    have hrest := ih fun q hq => h q (.tail _ hq)
    cases v with
    | function answer => cases hv
    | _ => exact hrest

theorem isSome_jsonView {v : Value} (h : v.isJson = true) : v.jsonView.isSome = true := by
  cases v with
  | object props =>
    rw [isJson, Bool.and_eq_true] at h
    rw [jsonView, toJSONMethod_of_isJsonProps (isJsonProps_iff.mp h.2)]
    rfl
  | undefined => cases h
  | function answer => cases h
  | symbol => cases h
  | _ => rfl

theorem jsonProps_of_isJson (h : ∀ p ∈ props, p.2.isJson = true) :
    jsonProps props = props.map fun p => (p.1, p.2.jsonView.getD .null) := by
  induction props with
  | nil => rfl
  | cons p props ih =>
    obtain ⟨key, v⟩ := p
    obtain ⟨view, hview⟩ := Option.isSome_iff_exists.mp (isSome_jsonView (h _ (.head _)))
    rw [jsonProps, ih fun q hq => h q (.tail _ hq), map_cons]
    simp [show v.jsonView = some view from hview]

/-! ## Properties in the order of enumeration -/

theorem perm_define {V : Type} {key : JsString} {v : V} {props : List (JsString × V)}
    (h : key ∉ props.map Prod.fst) : (define key v props).Perm ((key, v) :: props) := by
  induction props with
  | nil => exact .refl _
  | cons p props ih =>
    rw [map_cons, mem_cons, not_or] at h
    rw [define, if_neg (Ne.symm h.1)]
    split_ifs
    · exact .refl _
    · exact ((ih h.2).cons p).trans (.swap _ _ _)

theorem perm_ofList {V : Type} {props : List (JsString × V)} (h : (props.map Prod.fst).Nodup) :
    (ofList props).Perm props := by
  have hfold : ∀ (l acc : List (JsString × V)), (l.map Prod.fst).Nodup →
      (∀ k ∈ l.map Prod.fst, k ∉ acc.map Prod.fst) →
      (l.foldl (fun o p => define p.1 p.2 o) acc).Perm (l ++ acc) := by
    intro l
    induction l with
    | nil => exact fun acc _ _ => .refl _
    | cons p l ih =>
      intro acc hn hfresh
      rw [map_cons, nodup_cons] at hn
      have hdefine : (define p.1 p.2 acc).Perm (p :: acc) :=
        perm_define (hfresh _ (.head _))
      rw [foldl_cons]
      refine (ih _ hn.2 fun k hk => ?_).trans ?_
      · rw [(hdefine.map Prod.fst).mem_iff, map_cons, mem_cons, not_or]
        exact ⟨fun hkey => hn.1 (hkey ▸ hk), hfresh k (.tail _ hk)⟩
      · exact (hdefine.append_left l).trans perm_middle
  have hall := hfold props [] h fun k _ => not_mem_nil
  rwa [append_nil] at hall

/-! ## Sizes -/

/-- The bytes of a property, without its comma. -/
def propBytes (p : JsString × Value) : ℕ := byteLength (quote p.1) + 1 + byteLength p.2.text

theorem byteLength_textProps (props : List (JsString × Value)) :
    (textProps props).map byteLength = props.map propBytes := by
  induction props with
  | nil => rfl
  | cons p props ih =>
    obtain ⟨key, v⟩ := p
    rw [textProps, map_cons, map_cons, ih, byteLength_append _ rfl,
      byteLength_ascii_append (by decide)]
    rw [propBytes, add_assoc]
    rfl

theorem opensLow_of_mem_textProps : ∀ s ∈ textProps props, opensLow s = false := by
  induction props with
  | nil => exact forall_mem_nil _
  | cons p props ih =>
    obtain ⟨key, v⟩ := p
    intro s hs
    rcases mem_cons.mp hs with rfl | hs
    · rfl
    · exact ih s hs

theorem byteLength_text_object (props : List (JsString × Value)) :
    byteLength (text (.object props)) = 2 + (props.map propBytes).sum + (props.length - 1) := by
  have hlength : (textProps props).length = props.length := by
    have := congrArg length (byteLength_textProps props)
    rwa [length_map, length_map] at this
  have hopen : byteLength (lit "\x7b") = 1 := by decide +kernel
  have hclose : byteLength (lit "\x7d") = 1 := by decide +kernel
  rw [text, byteLength_ascii_append (by decide), byteLength_append _ rfl, hclose,
    byteLength_intercalate (by decide) rfl opensLow_of_mem_textProps, byteLength_textProps,
    hlength]
  change 1 + _ = _
  omega

/-- The bytes of an object, from what its values take alone. -/
theorem byteLength_stringify_object (hn : (props.map Prod.fst).Nodup)
    (hjson : ∀ p ∈ props, p.2.isJson = true) :
    bytes (.object props) =
      2 + (props.map fun p => byteLength (quote p.1) + 1 + bytes p.2).sum + (props.length - 1) := by
  have hview : jsonView (.object props) =
      some (.object (ofList (props.map fun p => (p.1, p.2.jsonView.getD .null)))) := by
    rw [jsonView, toJSONMethod_of_isJsonProps hjson, jsonProps_of_isJson hjson]
  have hkeys : ((props.map fun p => (p.1, p.2.jsonView.getD .null)).map Prod.fst).Nodup := by
    rwa [map_map]
  have hperm := perm_ofList hkeys
  have hvalue : ∀ p ∈ props, propBytes (p.1, p.2.jsonView.getD .null) =
      byteLength (quote p.1) + 1 + bytes p.2 := by
    intro p hp
    obtain ⟨view, hview⟩ := Option.isSome_iff_exists.mp (isSome_jsonView (hjson p hp))
    rw [propBytes, bytes, stringify, hview]
    rfl
  rw [bytes, stringify, hview, Option.map_some, Option.getD_some, byteLength_text_object,
    (hperm.map propBytes).sum_nat, hperm.length_eq, map_map, length_map,
    map_congr_left (f := propBytes ∘ _) hvalue]

end Value
end AdapterWs.Wire
