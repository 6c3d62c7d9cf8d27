import Disassembly.Flow.LabelText
import Disassembly.Proofs.Json.RoundTrip
import Mathlib.Data.List.Induction

namespace Disassembly.Labels

/-- The elements of a label file in their order. -/
def elements? (text : String) : Option (List (Address × String)) :=
  (Json.parse? text).bind fun
    | .array entries => entries.mapM entryOfJson?
    | _ => none

theorem parse?_eq (text : String) : parse? text = (elements? text).map ofList := by
  rw [parse?, elements?, Option.map_bind]
  congr 1
  funext v
  cases v <;> rfl

theorem ofList_concat (pairs : List (Address × String)) (pair : Address × String) :
    ofList (pairs ++ [pair]) = (ofList pairs).insert pair.1 pair.2 :=
  List.foldl_append

/-- The last name that is given to an address counts. -/
theorem getElem?_ofList (pairs : List (Address × String)) (a : Address) :
    (ofList pairs)[a]? = (pairs.filter (·.1 = a)).getLast?.map Prod.snd := by
  induction pairs using List.reverseRecOn with
  | nil => rfl
  | append_singleton pairs pair ih =>
    rw [ofList_concat, AddressMap.getElem?_insert, ih, List.filter_append]
    by_cases ha : pair.1 = a
    · simp [ha]
    · simp [ha]

theorem pairwise_toList (labels : Labels) : labels.toList.Pairwise (·.1 < ·.1) :=
  Std.ExtTreeMap.ordered_keys_toList.imp Std.compare_eq_lt.mp

theorem ofList_toList (labels : Labels) : ofList labels.toList = labels := by
  refine Std.ExtTreeMap.ext_getElem? fun a => ?_
  rw [getElem?_ofList]
  -- The map holds every pair of its list, so it holds the one that comes last.
  cases hlast : (labels.toList.filter (·.1 = a)).getLast? with
  | none =>
    rw [List.getLast?_eq_none_iff, List.filter_eq_nil_iff] at hlast
    refine (Option.eq_none_iff_forall_ne_some.mpr fun name hname => ?_).symm
    exact hlast (a, name) (Std.ExtTreeMap.mem_toList_iff_getElem?_eq_some.mpr hname)
      (decide_eq_true rfl)
  | some pair =>
    obtain ⟨hmem, ha⟩ := List.mem_filter.mp (List.mem_of_getLast? hlast)
    rw [← of_decide_eq_true ha]
    exact (Std.ExtTreeMap.mem_toList_iff_getElem?_eq_some.mp hmem).symm

theorem entryOfJson?_record (a : Address) (name : String) :
    entryOfJson? (.record [("addr", .ofNat a.toNat), ("name", .ofString name)]) =
      some (a, name) := by
  calc
    _ = (Json.ofNat a.toNat).toAddress?.bind fun a => some (a, name) := rfl
    _ = some (a, name) := by rw [Json.toAddress?_ofNat, Option.bind_some]

theorem isSpelled_toJson (labels : Labels) : labels.toJson.IsSpelled := by
  rw [toJson, Json.isSpelled_array, List.forall_mem_map]
  intro entry _
  simp only [Json.isSpelled_record, List.forall_mem_cons]
  simp [Json.isSpelled_ofNat, Json.isSpelled_ofString]

theorem elements?_text (labels : Labels) : elements? labels.text = some labels.toList := by
  rw [elements?, text, Json.parse?_pretty labels.isSpelled_toJson]
  calc
    _ = labels.toList.mapM fun entry => entryOfJson? (.record
        [("addr", .ofNat entry.1.toNat), ("name", .ofString entry.2)]) := List.mapM_map
    _ = labels.toList.mapM pure := by
      simp only [entryOfJson?_record]
      rfl
    _ = some labels.toList := by
      rw [List.mapM_pure, List.map_id']
      rfl

theorem parse?_text (labels : Labels) : parse? labels.text = some labels := by
  rw [parse?_eq, elements?_text, Option.map_some, ofList_toList]

/-- What is written is read again. A file that is read gives each address the last of its names,
and is written by ascending address. -/
theorem text_roundTrip :
    (∀ labels : Labels, parse? labels.text = some labels) ∧
    ∀ (text : String) (labels : Labels), parse? text = some labels →
      (∃ pairs, elements? text = some pairs ∧
        ∀ a : Address, labels[a]? = (pairs.filter (·.1 = a)).getLast?.map Prod.snd) ∧
      (∃ written, elements? labels.text = some written ∧ written.Pairwise (·.1 < ·.1)) ∧
      ∃ again, parse? labels.text = some again ∧ again.text = labels.text := by
  refine ⟨parse?_text, fun text labels h => ?_⟩
  rw [parse?_eq, Option.map_eq_some_iff] at h
  obtain ⟨pairs, hpairs, rfl⟩ := h
  have hwritten := elements?_text (ofList pairs)
  exact ⟨⟨pairs, hpairs, getElem?_ofList pairs⟩, ⟨_, hwritten, pairwise_toList _⟩,
    ⟨_, parse?_text _, rfl⟩⟩

/-- An address is named twice, at last by a quotation mark and a control character. -/
theorem text_roundTrip_named_twice :
    ∃ labels,
      some labels =
        parse? "[[2, \"b\"], \x7b\"name\": \"\\\"\\u0001\", \"addr\": 2\x7d, [0, \"a\"]]" ∧
      labels[(2 : Address)]? = some "\"\x01" ∧ parse? labels.text = some labels ∧
      ∃ written, elements? labels.text = some written ∧ written.Pairwise (·.1 < ·.1) := by
  have helements :
      elements? "[[2, \"b\"], \x7b\"name\": \"\\\"\\u0001\", \"addr\": 2\x7d, [0, \"a\"]]" =
        some [(2, "b"), (2, "\"\x01"), (0, "a")] := by decide +kernel
  have hparse := (parse?_eq _).trans (congrArg (Option.map ofList) helements)
  obtain ⟨⟨pairs, hpairs, hget⟩, hwritten, -⟩ := text_roundTrip.2 _ _ hparse
  obtain rfl := Option.some_inj.mp (helements.symm.trans hpairs)
  exact ⟨_, hparse.symm, hget 2, text_roundTrip.1 _, hwritten⟩

end Disassembly.Labels
