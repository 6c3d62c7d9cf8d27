import Disassembly.Flow.Exploration
import Mathlib.Logic.Relation

namespace Disassembly

/-- An exploration under way. -/
structure Search where
  /-- The addresses that wait, the next one first. -/
  waiting : List Address
  found : Exploration

namespace Processor

/-- What is known once the instruction `i` at `a` has been noted. -/
def note (p : Processor) (img : Image) (x : Exploration) (a : Address) (i : Instruction) :
    Exploration :=
  x.addInstruction a i (p.edges i) (p.callTargets img i)

end Processor

namespace Search

/-- One turn of an exploration that has room for another instruction. -/
inductive Turn (p : Processor) (img : Image) (limit : Nat) : Search → Search → Prop
  /-- The next address was visited before. -/
  | skip {a : Address} {rest : List Address} {x : Exploration}
      (room : x.instructions.size < limit) (visited : x.isVisited a) :
      Turn p img limit ⟨a :: rest, x⟩ ⟨rest, x⟩
  /-- It holds no instruction. -/
  | data {a : Address} {rest : List Address} {x : Exploration} {err : DecodeError}
      (room : x.instructions.size < limit) (fresh : ¬ x.isVisited a)
      (fails : p.decode img.read a = .error err) :
      Turn p img limit ⟨a :: rest, x⟩ ⟨rest, x.addData a⟩
  /-- It holds an instruction, whose new targets have to wait. -/
  | instruction {a : Address} {rest : List Address} {x : Exploration} {i : Instruction}
      (room : x.instructions.size < limit) (fresh : ¬ x.isVisited a)
      (decodes : p.decode img.read a = .ok i) :
      Turn p img limit ⟨a :: rest, x⟩
        ⟨rest ++ Processor.pending img (p.note img x a i) (p.edges i), p.note img x a i⟩

/-- Any number of turns. -/
abbrev Run (p : Processor) (img : Image) (limit : Nat) : Search → Search → Prop :=
  Relation.ReflTransGen (Turn p img limit)

/-- Nothing waits, or there is no room for what waits. -/
def IsOver (limit : Nat) (s : Search) : Prop :=
  s.waiting = [] ∨ limit ≤ s.found.instructions.size

theorem Run.keeps {p : Processor} {img : Image} {limit : Nat} {Inv : Search → Prop}
    (turn : ∀ s t, Turn p img limit s t → Inv s → Inv t) {s t : Search}
    (run : Run p img limit s t) (hs : Inv s) : Inv t := by
  induction run with
  | refl => exact hs
  | tail _ hturn ih => exact turn _ _ hturn ih

section

variable {p : Processor} {img : Image} {limit : Nat} {s t u : Search}

/-- The next address decides what a turn does. -/
theorem Turn.unique (h : Turn p img limit s t) (h' : Turn p img limit s u) : t = u := by
  cases h with
  | skip _ visited =>
    cases h' with
    | skip => rfl
    | data _ fresh _ => exact absurd visited fresh
    | instruction _ fresh _ => exact absurd visited fresh
  | data _ fresh fails =>
    cases h' with
    | skip _ visited => exact absurd visited fresh
    | data => rfl
    | instruction _ _ decodes =>
      rw [fails] at decodes
      cases decodes
  | instruction _ fresh decodes =>
    cases h' with
    | skip _ visited => exact absurd visited fresh
    | data _ _ fails =>
      rw [decodes] at fails
      cases fails
    | instruction _ _ decodes' =>
      rw [decodes] at decodes'
      cases decodes'
      rfl

theorem Turn.room (h : Turn p img limit s t) : s.found.instructions.size < limit := by
  cases h with
  | skip room _ => exact room
  | data room _ _ => exact room
  | instruction room _ _ => exact room

theorem Turn.waiting_ne_nil (h : Turn p img limit s t) : s.waiting ≠ [] := by
  cases h <;> simp

theorem IsOver.not_turn (hover : IsOver limit s) : ¬ Turn p img limit s t := by
  intro h
  have hwaiting := h.waiting_ne_nil
  have hroom := h.room
  rcases hover with hempty | hfull
  · exact hwaiting hempty
  · omega

theorem IsOver.eq_of_run (hover : IsOver limit s) (run : Run p img limit s t) : s = t := by
  rcases run.cases_head with heq | ⟨_, hturn, _⟩
  · exact heq
  · exact absurd hturn hover.not_turn

/-- Whatever a search comes to lies on the way to its end. -/
theorem Run.resume (run : Run p img limit s t) (final : Run p img limit s u)
    (hover : IsOver limit u) : Run p img limit t u := by
  have hunique : Relator.RightUnique (Turn p img limit) := fun _ _ _ => Turn.unique
  rcases Relation.ReflTransGen.total_of_right_unique hunique run final with h | h
  · exact h
  · have heq : u = t := hover.eq_of_run h
    subst heq
    exact .refl

end

end Search

namespace Processor

/-- Exploring is taking turns until the search is over. -/
theorem run_exploreFrom (p : Processor) (img : Image) (limit : Nat) (queue : Queue Address)
    (x : Exploration) :
    ∃ rest, Search.Run p img limit ⟨queue.toList, x⟩ ⟨rest, p.exploreFrom img limit queue x⟩ ∧
      Search.IsOver limit ⟨rest, p.exploreFrom img limit queue x⟩ := by
  fun_induction exploreFrom p img limit queue x with
  | case1 queue x hq => exact ⟨queue.toList, .refl, .inl (Queue.pop?_eq_none.mp hq)⟩
  | case2 queue x a rest hq hfull => exact ⟨queue.toList, .refl, .inr hfull⟩
  | case3 queue x a rest hq hroom hv ih =>
    obtain ⟨final, hrun, hover⟩ := ih
    rw [Queue.toList_of_pop? hq]
    exact ⟨final, .head (.skip (Nat.lt_of_not_le hroom) hv) hrun, hover⟩
  | case4 queue x a rest hq hroom hv err hd ih =>
    obtain ⟨final, hrun, hover⟩ := ih
    rw [Queue.toList_of_pop? hq]
    exact ⟨final, .head (.data (Nat.lt_of_not_le hroom) hv hd) hrun, hover⟩
  | case5 queue x a rest hq hroom hv i hd es x' ih =>
    obtain ⟨final, hrun, hover⟩ := ih
    rw [Queue.toList_pushAll] at hrun
    rw [Queue.toList_of_pop? hq]
    exact ⟨final, .head (.instruction (Nat.lt_of_not_le hroom) hv hd) hrun, hover⟩

theorem run_explore (p : Processor) (img : Image) (limit : Nat) (entries : List Address) :
    ∃ rest,
      Search.Run p img limit ⟨entries.filter img.isMapped, {}⟩ ⟨rest, p.explore img limit entries⟩ ∧
      Search.IsOver limit ⟨rest, p.explore img limit entries⟩ := by
  have h := p.run_exploreFrom img limit (.ofList (entries.filter img.isMapped)) {}
  rw [Queue.toList_ofList] at h
  exact h

/-- However a search from the entries comes to its end, it ends with the exploration. -/
theorem explore_eq_of_run {p : Processor} {img : Image} {limit : Nat} {entries rest : List Address}
    {x : Exploration} (run : Search.Run p img limit ⟨entries.filter img.isMapped, {}⟩ ⟨rest, x⟩)
    (hover : Search.IsOver limit ⟨rest, x⟩) : p.explore img limit entries = x := by
  obtain ⟨rest', hrun, hover'⟩ := p.run_explore img limit entries
  have hend : Search.Run p img limit ⟨rest', p.explore img limit entries⟩ ⟨rest, x⟩ :=
    hrun.resume run hover
  exact congrArg Search.found (hover'.eq_of_run hend)

end Processor

end Disassembly
