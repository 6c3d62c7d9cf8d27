import Disassembly.Flow.Routine
import Mathlib.Data.List.Sort
import Mathlib.Logic.Relation

namespace Disassembly

theorem mem_successors_iff (links : List (Address × Address)) (a b : Address) :
    b ∈ (successors links).getD a [] ↔ (a, b) ∈ links := by
  induction links with
  | nil => simp [successors]
  | cons link links ih =>
    obtain ⟨source, target⟩ := link
    change b ∈ ((successors links).insert source
      (target :: (successors links).getD source [])).getD a [] ↔ _
    rw [Std.ExtTreeMap.getD_insert]
    by_cases hs : source = a
    · subst hs
      simp [ih]
    · simp [hs, ih, Ne.symm hs]

variable {next : Address → List Address} {seen : AddressSet} {todo : List Address} {a b : Address}

theorem mem_reach_of_mem (h : a ∈ seen ∨ a ∈ todo) : a ∈ reach next seen todo := by
  fun_induction reach next seen todo with
  | case1 seen =>
    rcases h with h | h
    · exact h
    · cases h
  | case2 seen c todo hc ih =>
    apply ih
    rcases h with h | h
    · exact .inl h
    · rcases List.mem_cons.mp h with rfl | h
      · exact .inl (Std.ExtTreeSet.mem_iff_contains.mpr hc)
      · exact .inr h
  | case3 seen c todo hc ih =>
    apply ih
    rw [AddressSet.mem_insert, List.mem_append]
    rcases h with h | h
    · exact .inl (.inr h)
    · rcases List.mem_cons.mp h with rfl | h
      · exact .inl (.inl rfl)
      · exact .inr (.inr h)

theorem mem_reach_of_next (ha : a ∈ reach next seen todo) (hnew : a ∉ seen) (hb : b ∈ next a) :
    b ∈ reach next seen todo := by
  fun_induction reach next seen todo with
  | case1 seen => exact absurd ha hnew
  | case2 seen c todo hc ih => exact ih ha hnew
  | case3 seen c todo hc ih =>
    by_cases hac : a = c
    · subst hac
      exact mem_reach_of_mem (.inr (List.mem_append_left todo hb))
    · apply ih ha
      rw [AddressSet.mem_insert]
      intro h
      rcases h with h | h
      · exact hac h
      · exact hnew h

theorem exists_path_of_mem_reach (h : b ∈ reach next seen todo) :
    b ∈ seen ∨ ∃ a ∈ todo, Relation.ReflTransGen (fun a b => b ∈ next a) a b := by
  fun_induction reach next seen todo with
  | case1 seen => exact .inl h
  | case2 seen c todo hc ih =>
    rcases ih h with h | ⟨a, ha, hpath⟩
    · exact .inl h
    · exact .inr ⟨a, List.mem_cons_of_mem c ha, hpath⟩
  | case3 seen c todo hc ih =>
    rcases ih h with h | ⟨a, ha, hpath⟩
    · rcases AddressSet.mem_insert.mp h with rfl | h
      · exact .inr ⟨b, List.mem_cons_self, .refl⟩
      · exact .inl h
    · rcases List.mem_append.mp ha with ha | ha
      · exact .inr ⟨c, List.mem_cons_self, .head ha hpath⟩
      · exact .inr ⟨a, List.mem_cons_of_mem c ha, hpath⟩

theorem mem_reach_iff :
    b ∈ reach next ∅ [a] ↔ Relation.ReflTransGen (fun a b => b ∈ next a) a b := by
  constructor
  · intro h
    rcases exists_path_of_mem_reach h with h | ⟨c, hc, hpath⟩
    · simp at h
    · rw [List.mem_singleton.mp hc] at hpath
      exact hpath
  · intro h
    induction h with
    | refl => exact mem_reach_of_mem (.inr List.mem_cons_self)
    | tail _ hnext ih => exact mem_reach_of_next ih (by simp) hnext

namespace Routine

variable {links links' : List (Address × Address)} {entries entries' : List Address}
  {r r' : Routine}

theorem map_entry_along (links : List (Address × Address)) (entries : List Address) :
    (along links entries).map Routine.entry = entries := by
  unfold along
  rw [List.map_map]
  exact List.map_id entries

theorem entry_mem (h : r ∈ along links entries) : r.entry ∈ entries := by
  rw [← map_entry_along links entries]
  exact List.mem_map_of_mem h

theorem exists_mem_along (links : List (Address × Address)) (h : a ∈ entries) :
    ∃ r ∈ along links entries, r.entry = a := by
  rw [← map_entry_along links entries] at h
  exact List.mem_map.mp h

theorem mem_blocks_iff (h : r ∈ along links entries) :
    b ∈ r.blocks ↔ Relation.ReflTransGen (fun s t => (s, t) ∈ links) r.entry b := by
  obtain ⟨entry, _, rfl⟩ := List.mem_map.mp h
  rw [Std.ExtTreeSet.mem_toList, mem_reach_iff]
  simp only [mem_successors_iff]

theorem pairwise_blocks (h : r ∈ along links entries) : r.blocks.Pairwise (· < ·) := by
  obtain ⟨entry, _, rfl⟩ := List.mem_map.mp h
  exact Std.ExtTreeSet.ordered_toList.imp Std.compare_eq_lt.mp

/-- `r` is the routine of `entry`: it lists, in ascending order, whatever zero or more links lead
to. -/
structure Spans (links : List (Address × Address)) (entry : Address) (r : Routine) : Prop where
  entry_eq : r.entry = entry
  ascending : r.blocks.Pairwise (· < ·)
  reached : ∀ b, b ∈ r.blocks ↔ Relation.ReflTransGen (fun s t => (s, t) ∈ links) entry b

theorem spans_of_mem (h : r ∈ along links entries) : Spans links r.entry r where
  entry_eq := rfl
  ascending := pairwise_blocks h
  reached _ := mem_blocks_iff h

/-- An address has one routine, and that depends on the links as a set. -/
theorem Spans.unique (hlinks : ∀ l, l ∈ links ↔ l ∈ links') (h : Spans links a r)
    (h' : Spans links' a r') : r = r' := by
  have hentry : r.entry = r'.entry := h.entry_eq.trans h'.entry_eq.symm
  have hmem (b : Address) : b ∈ r.blocks ↔ b ∈ r'.blocks := by
    rw [h.reached, h'.reached]
    simp only [hlinks]
  have hblocks : r.blocks = r'.blocks := h.ascending.eq_of_mem_iff h'.ascending hmem
  obtain ⟨entry, blocks⟩ := r
  obtain ⟨entry', blocks'⟩ := r'
  simp only at hentry hblocks
  subst hentry hblocks
  rfl

theorem blocks_eq_of_entry_eq (hlinks : ∀ l, l ∈ links ↔ l ∈ links') (hr : r ∈ along links entries)
    (hr' : r' ∈ along links' entries') (hentry : r.entry = r'.entry) : r.blocks = r'.blocks := by
  have hspans : Spans links' r.entry r' := hentry ▸ spans_of_mem hr'
  rw [(spans_of_mem hr).unique hlinks hspans]

theorem mem_along_of_mem (hlinks : ∀ l, l ∈ links ↔ l ∈ links')
    (hentries : ∀ a ∈ entries, a ∈ entries') (hr : r ∈ along links entries) :
    r ∈ along links' entries' := by
  obtain ⟨r', hr', heq⟩ := exists_mem_along links' (hentries r.entry (entry_mem hr))
  have hspans : Spans links' r.entry r' := heq ▸ spans_of_mem hr'
  rw [(spans_of_mem hr).unique hlinks hspans]
  exact hr'

theorem forall₂_spans_along (links : List (Address × Address)) (entries : List Address) :
    List.Forall₂ (Spans links) entries (along links entries) := by
  have hself : List.Forall₂ (fun r r' => Spans links r.entry r') (along links entries)
      (along links entries) := List.forall₂_same.mpr fun _ hr => spans_of_mem hr
  have hmap := List.forall₂_map_left_iff.mpr hself
  rwa [map_entry_along] at hmap

/-- The routines along any links, with cycles, repetitions and entries that nothing leads from or
to, are one for each entry, in the order of the entries, and each lists what can be reached from
its entry. Nothing else is such a list of routines. -/
theorem along_eq_iff_spans (links : List (Address × Address)) (entries : List Address)
    (rs : List Routine) : along links entries = rs ↔ List.Forall₂ (Spans links) entries rs := by
  constructor
  · intro h
    rw [← h]
    exact forall₂_spans_along links entries
  · intro h
    refine List.right_unique_forall₂' ?_ (forall₂_spans_along links entries) h
    intro entry r r' hr hr'
    exact hr.unique (fun _ => Iff.rfl) hr'

end Routine

end Disassembly
