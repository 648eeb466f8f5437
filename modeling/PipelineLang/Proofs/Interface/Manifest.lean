import PipelineLang.Interface.Manifest
import PipelineLang.Proofs.Collection
import PipelineLang.Proofs.Json.Roundtrip

/-! A manifest that is written, compactly or indented, reads back as itself. -/

namespace PipelineLang.Manifest

theorem mapM_string? (names : List String) : (names.map Json.string).mapM string? = some names := by
  induction names with
  | nil => rfl
  | cons x xs ih => simp [string?, ih]

theorem strings?_stringsJson (names : List String) : strings? (stringsJson names) = some names :=
  mapM_string? names

theorem shape?_shapeJson (s : SignalShape) : shape? (shapeJson s) = some s := by
  cases s with
  | flat names => simp [shape?, shapeJson, strings?_stringsJson]
  | pair top bottom =>
    have hnone : strings? (.array [stringsJson top, stringsJson bottom]) = none := rfl
    simp [shape?, shapeJson, hnone, strings?_stringsJson]

theorem optionally_ofOption {α : Type} {read : Json → Option α} {write : α → Json}
    (h : ∀ a, read (write a) = some a) (hnull : ∀ a, write a ≠ .null) (o : Option α) :
    optionally read (some (.ofOption write o)) = some o := by
  cases o with
  | none => rfl
  | some a =>
    rw [Json.ofOption, optionally.eq_3 _ _ (hnull a), h]
    rfl

theorem count?_ofNat (n : UInt64) : count? (.ofNat n.toNat) = some n := by
  have hdigits : (Nat.toDigits 10 n.toNat).all Char.isDigit = true := by
    rw [List.all_eq_true]
    intro d hd
    exact Nat.isDigit_of_mem_toDigits (by decide) (by decide) hd
  have hvalue : (Nat.toDigits 10 n.toNat).foldl (fun n d => 10 * n + (d.toNat - '0'.toNat)) 0
      = n.toNat := by
    rw [← Nat.ofDigitChars_eq_foldl, Nat.ofDigitChars_ten_toDigits]
  have hsize : n.toNat < UInt64.size := n.toNat_lt_size
  simp only [count?, Json.ofNat, String.toList_ofList, hdigits, hvalue]
  simp [hsize]

theorem stringsJson_ne_null (names : List String) : stringsJson names ≠ .null := by
  simp [stringsJson]

theorem shapeJson_ne_null (s : SignalShape) : shapeJson s ≠ .null := by
  cases s <;> simp [shapeJson, stringsJson]

theorem component?_componentJson (s : ComponentSignature) :
    component? (componentJson s) = some s := by
  have hinputs := optionally_ofOption shape?_shapeJson shapeJson_ne_null s.inputs
  have houtputs := optionally_ofOption shape?_shapeJson shapeJson_ne_null s.outputs
  have hconfiguration := optionally_ofOption strings?_stringsJson stringsJson_ne_null
    s.configuration
  simp [component?, componentJson, record?, hinputs, houtputs, hconfiguration, withDefault,
    boolean?]

theorem function?_functionJson (f : FunctionSignature) : function? (functionJson f) = some f := by
  simp [function?, functionJson, record?, strings?_stringsJson, withDefault, count?_ofNat, boolean?]

theorem table?_tableJson {α : Type} {read : Json → Option α} {write : α → Json}
    (h : ∀ a, read (write a) = some a) (t : Table String α) :
    table? read (tableJson write t) = some t := by
  have hentries : ∀ l : List (String × α),
      (l.map fun e => (e.1, write e.2)).mapM (fun e => (read e.2).map fun a => (e.1, a)) =
      some l := by
    intro l
    induction l with
    | nil => rfl
    | cons e l ih => simp_all
  have hread : table? read (tableJson write t) = some (.ofList t.entries) := by
    rw [tableJson, table?, hentries]
    rfl
  rw [hread, Table.ofList_entries]

theorem ofJson?_toJson (m : Manifest) : ofJson? m.toJson = some m := by
  have hcomponents := table?_tableJson component?_componentJson m.components
  have hpackages := table?_tableJson (table?_tableJson function?_functionJson) m.packages
  simp [ofJson?, toJson, record?, withDefault, package?, hcomponents, hpackages]

theorem plain_stringsJson (names : List String) : (stringsJson names).Plain := by
  refine .array fun v hv => ?_
  obtain ⟨x, -, rfl⟩ := List.mem_map.mp hv
  exact .string x

theorem plain_shapeJson (s : SignalShape) : (shapeJson s).Plain := by
  cases s with
  | flat names => exact plain_stringsJson names
  | pair top bottom =>
    refine .array fun v hv => ?_
    simp only [List.mem_cons, List.not_mem_nil, or_false] at hv
    rcases hv with rfl | rfl <;> exact plain_stringsJson _

theorem plain_ofOption {α : Type} {write : α → Json} (h : ∀ a, (write a).Plain) (o : Option α) :
    (Json.ofOption write o).Plain := by
  cases o with
  | none => exact .null
  | some a => exact h a

theorem plain_tableJson {α : Type} {write : α → Json} (h : ∀ a, (write a).Plain)
    (t : Table String α) : (tableJson write t).Plain := by
  refine .object fun f hf => ?_
  obtain ⟨e, -, rfl⟩ := List.mem_map.mp hf
  exact h e.2

theorem plain_componentJson (s : ComponentSignature) : (componentJson s).Plain := by
  refine .object ?_
  simp only [List.forall_mem_cons, List.not_mem_nil, false_implies, implies_true, and_true]
  exact ⟨plain_ofOption plain_shapeJson _, plain_ofOption plain_shapeJson _,
    plain_ofOption plain_stringsJson _, .boolean _, .boolean _⟩

theorem plain_functionJson (f : FunctionSignature) : (functionJson f).Plain := by
  refine .object ?_
  simp only [List.forall_mem_cons, List.not_mem_nil, false_implies, implies_true, and_true]
  exact ⟨plain_stringsJson _, .ofNat _, .boolean _, .boolean _⟩

theorem plain_toJson (m : Manifest) : m.toJson.Plain := by
  refine .object ?_
  simp only [List.forall_mem_cons, List.not_mem_nil, false_implies, implies_true, and_true]
  exact ⟨plain_tableJson plain_componentJson _,
    plain_tableJson (plain_tableJson plain_functionJson) _⟩

theorem read?_compact (m : Manifest) : read? m.toJson.compact = some m := by
  simp [read?, Json.read?_compact m.plain_toJson, ofJson?_toJson]

theorem read?_pretty (m : Manifest) : read? m.toJson.pretty = some m := by
  simp [read?, Json.read?_pretty m.plain_toJson, ofJson?_toJson]

end PipelineLang.Manifest
