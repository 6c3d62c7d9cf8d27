import Disassembly.Json.Record
import Mathlib.Data.List.Count
import Mathlib.Data.List.Forall2

namespace Disassembly.Json

theorem mapM_eq_some_iff {α β : Type} {f : α → Option β} {xs : List α} {ys : List β} :
    xs.mapM f = some ys ↔ List.Forall₂ (fun x y => f x = some y) xs ys := by
  induction xs generalizing ys with
  | nil => simp [eq_comm]
  | cons x xs ih =>
    simp only [List.mapM_cons, Option.bind_eq_bind, Option.bind_eq_some_iff, ih,
      List.forall₂_cons_left_iff, Option.pure_def, Option.some.injEq]
    constructor
    · rintro ⟨y, hy, ys, hys, rfl⟩
      exact ⟨y, ys, hy, hys, rfl⟩
    · rintro ⟨y, ys, hy, hys, rfl⟩
      exact ⟨y, hy, ys, hys, rfl⟩

theorem values?_record (keys : List String) (fields : List (String × Json)) :
    (record fields).values? keys = keys.mapM (atMostOne? fields) := by
  have hkeys : (fields.map fun field => (some field.1, field.2)).mapM
      (fun field : Option String × Json => field.1.map fun key => (key, field.2)) =
        some fields := by
    rw [List.mapM_map]
    exact List.mapM_pure.trans (by simp)
  simp [values?, record, hkeys]

/-- The keys of a record that is read are texts. -/
theorem exists_eq_record {keys : List String} {fields : List (Option String × Json)}
    {values : List (Option Json)} (h : (object fields).values? keys = some values) :
    ∃ texts : List (String × Json), fields = texts.map fun field => (some field.1, field.2) := by
  obtain ⟨texts, htexts, -⟩ := Option.bind_eq_some_iff.mp h
  refine ⟨texts, ?_⟩
  rw [← List.forall₂_eq_eq_eq, List.forall₂_map_right_iff]
  refine (mapM_eq_some_iff.mp htexts).imp fun field text hfield => ?_
  obtain ⟨key, hkey, rfl⟩ := Option.map_eq_some_iff.mp hfield
  exact Prod.ext hkey rfl

theorem toBool?_eq_some_iff {v : Json} {b : Bool} : v.toBool? = some b ↔ v = .bool b := by
  cases v <;> simp [toBool?]

theorem toString?_eq_some_iff {v : Json} {s : String} :
    v.toString? = some s ↔ v = .string (some s) := by
  cases v <;> simp [toString?]

section

variable {α : Type} {fields : List (String × Json)} {key : String} {read? : Json → Option α}
  {default x : α}

/-- `x` is read from the only field with the key, or is the default where there is none. -/
def Gives (fields : List (String × Json)) (key : String) (read? : Json → Option α)
    (default x : α) : Prop :=
  (atMostOne? fields key).bind (valueOr? default read?) = some x

theorem gives_iff :
    Gives fields key read? default x ↔
      (fields.filter (·.1 == key) = [] ∧ x = default) ∨
        ∃ v, fields.filter (·.1 == key) = [(key, v)] ∧ read? v = some x := by
  unfold Gives atMostOne?
  split
  · next hnone => simp [hnone, valueOr?, eq_comm]
  · next field hone =>
    have hmem : field ∈ fields.filter (·.1 == key) := by rw [hone]; exact List.mem_singleton_self _
    obtain ⟨k, v⟩ := field
    obtain rfl : k = key := by simpa using (List.mem_filter.mp hmem).2
    simp [hone, valueOr?]
  · next hnone hone =>
    simp only [Option.bind_none, reduceCtorEq, false_iff, not_or]
    refine ⟨fun h => hnone h.1, ?_⟩
    rintro ⟨v, hv, -⟩
    exact hone _ hv

theorem gives_cons_of_ne {k : String} {v : Json} (h : k ≠ key) :
    Gives ((k, v) :: fields) key read? default x ↔ Gives fields key read? default x := by
  rw [Gives, atMostOne?, List.filter_cons_of_neg (by simpa using h), Gives, atMostOne?]

/-- A first field with a key that no other one has gives the key its value. -/
theorem gives_cons_self {v : Json} (h : ∀ field ∈ fields, field.1 ≠ key) (hv : read? v = some x) :
    Gives ((key, v) :: fields) key read? default x := by
  refine gives_iff.mpr (.inr ⟨v, ?_, hv⟩)
  rw [List.filter_cons_of_pos (by simp), List.filter_eq_nil_iff.mpr (by simpa using h)]

end

/-- Something is wrong with the fields of a record: a key is no text, a known key stands twice, or
a known key has a value that it cannot have. -/
inductive HasFault (keys : List String) (IsValue : String → Json → Prop)
    (fields : List (Option String × Json)) : Prop
  | noText {v : Json} (mem : (none, v) ∈ fields)
  | twice {key : String} (known : key ∈ keys) (two : 2 ≤ (fields.map Prod.fst).count (some key))
  | value {key : String} {v : Json} (known : key ∈ keys) (mem : (some key, v) ∈ fields)
    (wrong : ¬ IsValue key v)

/-- The value is one that a record can be read from: an object without a fault, or an array of at
most one value for each key, where each is a value that the key in its position can have. -/
def IsRecord (keys : List String) (IsValue : String → Json → Prop) : Json → Prop
  | object fields => ¬ HasFault keys IsValue fields
  | array elements =>
    elements.length ≤ keys.length ∧ ∀ field ∈ keys.zip elements, IsValue field.1 field.2
  | _ => False

/-- The key has no value, or one that it can have. -/
def Fits (IsValue : String → Json → Prop) (key : String) (value : Option Json) : Prop :=
  ∀ v, value = some v → IsValue key v

variable {keys : List String} {IsValue : String → Json → Prop}

@[simp]
theorem fits_none {key : String} : Fits IsValue key none := nofun

@[simp]
theorem fits_some {key : String} {v : Json} : Fits IsValue key (some v) ↔ IsValue key v := by
  simp [Fits]

theorem exists_atMostOne?_iff {fields : List (String × Json)} {key : String} :
    (∃ value, atMostOne? fields key = some value ∧ Fits IsValue key value) ↔
      (fields.map Prod.fst).count key ≤ 1 ∧ ∀ v, (key, v) ∈ fields → IsValue key v := by
  have hcount : (fields.map Prod.fst).count key = (fields.filter (·.1 == key)).length := by
    rw [List.count, List.countP_map, List.countP_eq_length_filter]
    rfl
  have hmem (v : Json) : (key, v) ∈ fields ↔ (key, v) ∈ fields.filter (·.1 == key) := by
    simp [List.mem_filter]
  simp only [hcount, hmem, atMostOne?]
  split
  · next hnone => simp [hnone]
  · next field hone =>
    have hkey : field ∈ fields.filter (·.1 == key) := by rw [hone]; exact List.mem_singleton_self _
    obtain ⟨k, v⟩ := field
    obtain rfl : k = key := by simpa using (List.mem_filter.mp hkey).2
    simp [hone]
  · next hnone hone =>
    simp only [reduceCtorEq, false_and, exists_false, false_iff, not_and]
    intro hlength
    match hfilter : fields.filter (·.1 == key) with
    | [] => exact absurd hfilter hnone
    | [field] => exact absurd hfilter (hone field)
    | _ :: _ :: _ => simp [hfilter] at hlength

theorem not_hasFault_record_iff {fields : List (String × Json)} :
    ¬ HasFault keys IsValue (fields.map fun field => (some field.1, field.2)) ↔
      ∀ key ∈ keys, (fields.map Prod.fst).count key ≤ 1 ∧
        ∀ v, (key, v) ∈ fields → IsValue key v := by
  have hcount (key : String) :
      ((fields.map fun field => (some field.1, field.2)).map Prod.fst).count (some key) =
        (fields.map Prod.fst).count key := by
    have hinj : Function.Injective (some : String → Option String) := fun _ _ => Option.some.inj
    rw [← List.count_map_of_injective (fields.map Prod.fst) some hinj, List.map_map, List.map_map]
    rfl
  have hmem (key : String) (v : Json) :
      (some key, v) ∈ fields.map (fun field => (some field.1, field.2)) ↔ (key, v) ∈ fields := by
    simp
  constructor
  · intro hsound key hknown
    refine ⟨?_, ?_⟩
    · by_contra htwo
      exact hsound (.twice hknown (by rw [hcount]; omega))
    · intro v hv
      by_contra hwrong
      exact hsound (.value hknown ((hmem key v).mpr hv) hwrong)
  · rintro h (⟨hnone⟩ | ⟨hknown, htwo⟩ | ⟨hknown, hv, hwrong⟩)
    · simp at hnone
    · rw [hcount] at htwo
      have hone := (h _ hknown).1
      omega
    · exact hwrong ((h _ hknown).2 _ ((hmem _ _).mp hv))

theorem exists_eq_record_of_not_hasFault {fields : List (Option String × Json)}
    (h : ¬ HasFault keys IsValue fields) :
    ∃ texts : List (String × Json), fields = texts.map fun field => (some field.1, field.2) := by
  have hnone : ∀ v, (none, v) ∉ fields := fun v hmem => h (.noText hmem)
  clear h
  induction fields with
  | nil => exact ⟨[], rfl⟩
  | cons field fields ih =>
    obtain ⟨texts, rfl⟩ := ih fun v hmem => hnone v (List.mem_cons_of_mem _ hmem)
    match field with
    | (none, v) => exact absurd List.mem_cons_self (hnone v)
    | (some key, v) => exact ⟨(key, v) :: texts, rfl⟩

theorem exists_forall₂_iff {α β : Type} {R S : α → β → Prop} {xs : List α} :
    (∃ ys, List.Forall₂ R xs ys ∧ List.Forall₂ S xs ys) ↔ ∀ x ∈ xs, ∃ y, R x y ∧ S x y := by
  induction xs with
  | nil => simp
  | cons x xs ih =>
    rw [List.forall_mem_cons, ← ih]
    constructor
    · rintro ⟨_, hR, hS⟩
      obtain ⟨y, ys, hy, hys, rfl⟩ := List.forall₂_cons_left_iff.mp hR
      obtain ⟨hy', hys'⟩ := List.forall₂_cons.mp hS
      exact ⟨⟨y, hy, hy'⟩, ys, hys, hys'⟩
    · rintro ⟨⟨y, hy, hy'⟩, ys, hys, hys'⟩
      exact ⟨y :: ys, .cons hy hys, .cons hy' hys'⟩

/-- Of an array's elements each fits the key in its position, and the keys behind have no value. -/
theorem forall₂_padded_iff {elements : List Json} (h : elements.length ≤ keys.length) :
    List.Forall₂ (Fits IsValue) keys
        (elements.map some ++ List.replicate (keys.length - elements.length) none) ↔
      ∀ field ∈ keys.zip elements, IsValue field.1 field.2 := by
  induction keys generalizing elements with
  | nil => simp_all
  | cons key keys ih =>
    cases elements with
    | nil => simpa [List.replicate_succ] using @ih [] (Nat.zero_le _)
    | cons v elements =>
      have hlength : elements.length ≤ keys.length := Nat.le_of_succ_le_succ h
      simpa using fun _ => ih hlength

/-- What a record can be read from are the values that give each key none or a fitting one. -/
theorem isRecord_iff {v : Json} :
    v.IsRecord keys IsValue ↔ ∃ values, v.values? keys = some values ∧
      List.Forall₂ (Fits IsValue) keys values := by
  cases v with
  | object fields =>
    have hrecord (texts : List (String × Json)) :
        ¬ HasFault keys IsValue (texts.map fun field => (some field.1, field.2)) ↔
          ∃ values, (record texts).values? keys = some values ∧
            List.Forall₂ (Fits IsValue) keys values := by
      simp only [not_hasFault_record_iff, values?_record, mapM_eq_some_iff, exists_forall₂_iff,
        exists_atMostOne?_iff]
    constructor
    · intro h
      obtain ⟨texts, rfl⟩ := exists_eq_record_of_not_hasFault h
      exact (hrecord texts).mp h
    · rintro ⟨values, hvalues, hfit⟩
      obtain ⟨texts, rfl⟩ := exists_eq_record hvalues
      exact (hrecord texts).mpr ⟨values, hvalues, hfit⟩
  | array elements =>
    by_cases hlength : elements.length ≤ keys.length
    · simp only [IsRecord, values?, hlength, if_true, true_and, Option.some.injEq,
        exists_eq_left', forall₂_padded_iff hlength]
    · simp [IsRecord, values?, hlength]
  | _ => simp [IsRecord, values?]

theorem exists_valueOr?_iff {α : Type} {key : String} {read? : Json → Option α} {default : α}
    {value : Option Json} (hread : ∀ v, (∃ x, read? v = some x) ↔ IsValue key v) :
    (∃ x, valueOr? default read? value = some x) ↔ Fits IsValue key value := by
  cases value with
  | none => simp [valueOr?]
  | some v => simp [valueOr?, hread]

end Disassembly.Json
