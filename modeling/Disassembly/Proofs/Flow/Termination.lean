import Disassembly.Proofs.Flow.Discovery

namespace Disassembly

namespace Processor

/-- An instruction has two ways on at most. -/
theorem length_pending_le (p : Processor) (img : Image) (x : Exploration) (i : Instruction) :
    (pending img x (p.edges i)).length ≤ 2 := by
  rw [pending, List.length_map]
  exact Nat.le_trans (List.length_filter_le _ _) (p.table.length_edges_le i)

end Processor

namespace Search

variable {p : Processor} {img : Image} {limit : Nat} {s t : Search} {a b : Address}
  {rest taken taken' decoded decoded' : List Address} {x y y' : Exploration}

/-- An address joins the queue only with an instruction, and with each instruction two at most. -/
theorem Turn.length_waiting (h : Turn p img limit s t) :
    1 + t.waiting.length + 2 * s.found.instructions.size ≤
      s.waiting.length + 2 * t.found.instructions.size := by
  cases h with
  | skip =>
    simp only [List.length_cons]
    omega
  | data =>
    simp only [List.length_cons, Exploration.addData]
    omega
  | @instruction a rest x i _ fresh _ =>
    have hpending := p.length_pending_le img (p.note img x a i) i
    simp only [List.length_cons, List.length_append, Processor.size_note fresh]
    omega

/-- The queue may grow, but it does so only with a visit, and no address is visited twice. -/
theorem Turn.remaining_lt (h : Turn p img limit s t) :
    t.found.remaining (.ofList t.waiting) < s.found.remaining (.ofList s.waiting) := by
  simp only [Exploration.remaining, Queue.toList_ofList]
  cases h with
  | skip => simp
  | @data a rest x _ _ fresh _ =>
    have hvisits := Exploration.visits_addData fresh
    have hbound := (x.addData a).visits_le
    simp only [List.length_cons]
    omega
  | @instruction a rest x i _ fresh _ =>
    have hvisits : (p.note img x a i).visits = x.visits + 1 :=
      Exploration.visits_addInstruction fresh i _ _
    have hbound := (p.note img x a i).visits_le
    have hpending := p.length_pending_le img (p.note img x a i) i
    simp only [List.length_cons, List.length_append]
    omega

/-- No search goes on for ever, wherever it starts. -/
theorem wellFounded_turn (p : Processor) (img : Image) (limit : Nat) :
    WellFounded (fun t s => Turn p img limit s t) :=
  Subrelation.wf (fun h => Turn.remaining_lt h)
    (measure fun s : Search => s.found.remaining (.ofList s.waiting)).wf

/-- `Log s taken decoded y`: from `s` on the addresses that leave the queue are `taken`, those
where an instruction is looked for are `decoded`, and then the search is over with `y`. -/
inductive Log (p : Processor) (img : Image) (limit : Nat) :
    Search → List Address → List Address → Exploration → Prop
  /-- Nothing waits. -/
  | empty {x : Exploration} : Log p img limit ⟨[], x⟩ [] [] x
  /-- One more address leaves the queue before the limit is noticed. -/
  | full {a : Address} {rest : List Address} {x : Exploration}
      (full : limit ≤ x.instructions.size) : Log p img limit ⟨a :: rest, x⟩ [a] [] x
  /-- The next address was visited before. -/
  | skip {a : Address} {rest taken decoded : List Address} {x y : Exploration}
      (room : x.instructions.size < limit) (visited : x.isVisited a)
      (log : Log p img limit ⟨rest, x⟩ taken decoded y) :
      Log p img limit ⟨a :: rest, x⟩ (a :: taken) decoded y
  /-- It is visited now. -/
  | visit {a : Address} {rest taken decoded : List Address} {x y : Exploration} {t : Search}
      (fresh : ¬ x.isVisited a) (turn : Turn p img limit ⟨a :: rest, x⟩ t)
      (log : Log p img limit t taken decoded y) :
      Log p img limit ⟨a :: rest, x⟩ (a :: taken) (a :: decoded) y

namespace Log

theorem of_turn (turn : Turn p img limit s t) (log : Log p img limit t taken decoded y) :
    ∃ taken' decoded', Log p img limit s taken' decoded' y := by
  cases turn with
  | skip room visited => exact ⟨_, _, .skip room visited log⟩
  | data room fresh fails => exact ⟨_, _, .visit fresh (.data room fresh fails) log⟩
  | instruction room fresh decodes =>
    exact ⟨_, _, .visit fresh (.instruction room fresh decodes) log⟩

theorem of_isOver (hover : IsOver limit s) : ∃ taken, Log p img limit s taken [] s.found := by
  obtain ⟨waiting, x⟩ := s
  cases waiting with
  | nil => exact ⟨[], .empty⟩
  | cons a rest =>
    rcases hover with hempty | hfull
    · cases hempty
    · exact ⟨[a], .full hfull⟩

theorem of_run (run : Run p img limit s t) (hover : IsOver limit t) :
    ∃ taken decoded, Log p img limit s taken decoded t.found := by
  -- The log is written from the end of the run back to its start.
  induction run using Relation.ReflTransGen.head_induction_on with
  | refl =>
    obtain ⟨taken, log⟩ := of_isOver hover
    exact ⟨taken, [], log⟩
  | head turn _ ih =>
    obtain ⟨_, _, log⟩ := ih
    exact of_turn turn log

theorem unique (h : Log p img limit s taken decoded y) (h' : Log p img limit s taken' decoded' y') :
    taken' = taken ∧ decoded' = decoded ∧ y' = y := by
  induction h generalizing taken' decoded' y' with
  | empty =>
    cases h'
    exact ⟨rfl, rfl, rfl⟩
  | full full =>
    cases h' with
    | full => exact ⟨rfl, rfl, rfl⟩
    | skip room _ _ => exact absurd room (Nat.not_lt.mpr full)
    | visit _ turn _ => exact absurd turn.room (Nat.not_lt.mpr full)
  | skip room visited _ ih =>
    cases h' with
    | full full => exact absurd room (Nat.not_lt.mpr full)
    | skip _ _ log =>
      obtain ⟨rfl, rfl, rfl⟩ := ih log
      exact ⟨rfl, rfl, rfl⟩
    | visit fresh _ _ => exact absurd visited fresh
  | visit fresh turn _ ih =>
    cases h' with
    | full full => exact absurd turn.room (Nat.not_lt.mpr full)
    | skip _ visited _ => exact absurd visited fresh
    | visit _ turn' log =>
      cases turn.unique turn'
      obtain ⟨rfl, rfl, rfl⟩ := ih log
      exact ⟨rfl, rfl, rfl⟩

/-- Each address that leaves the queue was there at the start or joined it with an instruction. -/
theorem length_taken (h : Log p img limit s taken decoded y) :
    taken.length + 2 * s.found.instructions.size ≤
      s.waiting.length + 2 * y.instructions.size := by
  induction h with
  | empty => exact Nat.le_refl _
  | full =>
    simp only [List.length_cons, List.length_nil]
    omega
  | skip room visited _ ih =>
    simp only [List.length_cons] at ih ⊢
    omega
  | visit _ turn _ ih =>
    have hturn := turn.length_waiting
    simp only [List.length_cons] at hturn ih ⊢
    omega

/-- An instruction is looked for where the search had not been and has been in the end. -/
theorem isVisited_iff (h : Log p img limit s taken decoded y) :
    y.isVisited b ↔ b ∈ decoded ∨ s.found.isVisited b := by
  induction h with
  | empty => simp
  | full => simp
  | skip _ _ _ ih => exact ih
  | visit _ turn _ ih =>
    rw [ih, turn.isVisited_iff, List.mem_cons]
    tauto

theorem not_isVisited (h : Log p img limit s taken decoded y) (hb : b ∈ decoded) :
    ¬ s.found.isVisited b := by
  induction h with
  | empty => cases hb
  | full => cases hb
  | skip _ _ _ ih => exact ih hb
  | visit fresh turn _ ih =>
    rcases List.mem_cons.mp hb with rfl | hb
    · exact fresh
    · intro hvisited
      exact ih hb (turn.isVisited_iff.mpr (.inr hvisited))

/-- What is visited stays so, and there no instruction is looked for again. -/
theorem nodup_decoded (h : Log p img limit s taken decoded y) : decoded.Nodup := by
  induction h with
  | empty => exact .nil
  | full => exact .nil
  | skip _ _ _ ih => exact ih
  | visit _ turn log ih =>
    have hvisited := turn.isVisited_iff.mpr (.inl rfl)
    exact List.nodup_cons.mpr ⟨fun hmem => log.not_isVisited hmem hvisited, ih⟩

end Log

end Search

namespace Processor

/-- Exploring comes to its end. Each address is decoded once at most, and no more addresses leave
the queue than there are mapped entries and, for each instruction that is found, two. -/
theorem explore_ends (p : Processor) (img : Image) (limit : Nat) (entries : List Address) :
    let start : Search := ⟨entries.filter img.isMapped, {}⟩
    let x := p.explore img limit entries
    WellFounded (fun t s => Search.Turn p img limit s t) ∧
    ∃ taken decoded, Search.Log p img limit start taken decoded x ∧
      (∀ taken' decoded' y, Search.Log p img limit start taken' decoded' y →
        taken' = taken ∧ decoded' = decoded ∧ y = x) ∧
      decoded.Nodup ∧ (∀ a, a ∈ decoded ↔ x.isVisited a) ∧
      taken.length ≤ (entries.filter img.isMapped).length + 2 * x.instructions.size := by
  intro start x
  obtain ⟨rest, hrun, hover⟩ := p.run_explore img limit entries
  obtain ⟨taken, decoded, hlog⟩ := Search.Log.of_run hrun hover
  refine ⟨Search.wellFounded_turn p img limit, taken, decoded, hlog,
    fun _ _ _ => hlog.unique, hlog.nodup_decoded, ?_, ?_⟩
  · intro a
    have hstart : ¬ start.found.isVisited a := by simp [start, Exploration.isVisited_iff]
    exact (hlog.isVisited_iff.trans (or_iff_left hstart)).symm
  · simpa using hlog.length_taken

/-- Of three entries two are the same and one has no byte. The first branch leads to itself, the
second has one target twice, and the jump behind them leads back to the first. -/
theorem explore_ends_loops :
    let p := Processor.standard {}
    let img := Image.single 0 #[0x41, 0, 0, 0x41, 6, 0, 0x40, 0, 0]
    let start : Search := ⟨[0, 0], {}⟩
    let x := p.explore img 100 [0, 0, 0x1000]
    x.instructions.keys = [0, 3, 6] ∧
      ∃ taken decoded, Search.Log p img 100 start taken decoded x ∧ decoded.Nodup ∧
        6 ∈ decoded ∧ 0x1000 ∉ decoded ∧ taken.length ≤ 8 := by
  intro p img start x
  obtain ⟨_, taken, decoded, hlog, _, hnodup, hdecoded, hlength⟩ :=
    explore_ends p img 100 [0, 0, 0x1000]
  have hstart : [0, 0, 0x1000].filter img.isMapped = [0, 0] := by decide +kernel
  have hsize : x.instructions.size = 3 := by decide +kernel
  change taken.length ≤ _ + 2 * x.instructions.size at hlength
  rw [hstart] at hlog
  rw [hstart, hsize] at hlength
  refine ⟨by decide +kernel, taken, decoded, hlog, hnodup, ?_, ?_, hlength⟩
  · exact (hdecoded 6).mpr (by decide +kernel)
  · rw [hdecoded]
    decide +kernel

end Processor

end Disassembly
