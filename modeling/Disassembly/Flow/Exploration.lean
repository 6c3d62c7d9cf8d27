import Disassembly.Flow.AddressSet
import Disassembly.Flow.Queue
import Disassembly.Memory.Image
import Disassembly.Processor

namespace Disassembly

/-- What following control from a set of entries has found. -/
structure Exploration where
  /-- The decoded instructions by their addresses. -/
  instructions : AddressMap Instruction := ∅
  /-- The ways between them in the order of discovery. -/
  edges : Array Edge := #[]
  /-- Reached addresses that hold no instruction. -/
  data : AddressSet := ∅
  /-- Mapped targets of calls. -/
  callTargets : AddressSet := ∅
  /-- Where a jump edge starts. -/
  jumpSources : AddressSet := ∅
  /-- Where a flow edge starts. -/
  flowSources : AddressSet := ∅

namespace Exploration

/-- There is no set of visited addresses of its own: whatever was visited has become an instruction
or data. -/
def isVisited (x : Exploration) (a : Address) : Bool :=
  x.instructions.contains a || x.data.contains a

def isJumpSource (x : Exploration) (a : Address) : Bool :=
  x.jumpSources.contains a

def fallsThrough (x : Exploration) (a : Address) : Bool :=
  x.flowSources.contains a

/-- The number of visited addresses. -/
def visits (x : Exploration) : Nat :=
  x.instructions.size + x.data.size

def addEdge (x : Exploration) (e : Edge) : Exploration :=
  match e.kind with
  | .jump => { x with edges := x.edges.push e, jumpSources := x.jumpSources.insert e.source }
  | .flow => { x with edges := x.edges.push e, flowSources := x.flowSources.insert e.source }

def addCallTargets (x : Exploration) (targets : List Address) : Exploration :=
  { x with callTargets := x.callTargets.insertMany targets }

/-- Notes that `a` was reached and holds no instruction. -/
def addData (x : Exploration) (a : Address) : Exploration :=
  { x with data := x.data.insert a }

/-- Notes the instruction at `a` and the ways from it. -/
def addInstruction (x : Exploration) (a : Address) (i : Instruction) (edges : List Edge)
    (calls : List Address) : Exploration :=
  let x := { x with instructions := x.instructions.insert a i }
  (edges.foldl addEdge x).addCallTargets calls

end Exploration

namespace Processor

/-- The mapped targets of the jumps of `i`, if it is a call. -/
def callTargets (p : Processor) (img : Image) (i : Instruction) : List Address :=
  if (p.definition? i).any Definition.isCall then
    ((p.edges i).filter fun e => e.kind = .jump ∧ img.isMapped e.target).map Edge.target
  else []

end Processor

namespace Exploration

@[simp]
theorem instructions_addEdge (x : Exploration) (e : Edge) :
    (x.addEdge e).instructions = x.instructions := by
  unfold addEdge
  cases e.kind <;> rfl

@[simp]
theorem data_addEdge (x : Exploration) (e : Edge) : (x.addEdge e).data = x.data := by
  unfold addEdge
  cases e.kind <;> rfl

theorem instructions_foldl_addEdge (x : Exploration) (es : List Edge) :
    (es.foldl addEdge x).instructions = x.instructions := by
  induction es generalizing x with
  | nil => rfl
  | cons e es ih => rw [List.foldl_cons, ih, instructions_addEdge]

theorem data_foldl_addEdge (x : Exploration) (es : List Edge) :
    (es.foldl addEdge x).data = x.data := by
  induction es generalizing x with
  | nil => rfl
  | cons e es ih => rw [List.foldl_cons, ih, data_addEdge]

@[simp]
theorem instructions_addInstruction (x : Exploration) (a : Address) (i : Instruction)
    (es : List Edge) (calls : List Address) :
    (x.addInstruction a i es calls).instructions = x.instructions.insert a i := by
  simp [addInstruction, addCallTargets, instructions_foldl_addEdge]

@[simp]
theorem data_addInstruction (x : Exploration) (a : Address) (i : Instruction)
    (es : List Edge) (calls : List Address) :
    (x.addInstruction a i es calls).data = x.data := by
  simp [addInstruction, addCallTargets, data_foldl_addEdge]

theorem visits_le (x : Exploration) : x.visits ≤ 2 * UInt32.size := by
  have := AddressMap.size_le x.instructions
  have := AddressSet.size_le x.data
  unfold visits
  omega

theorem visits_addData {x : Exploration} {a : Address} (h : ¬ x.isVisited a) :
    (x.addData a).visits = x.visits + 1 := by
  simp only [isVisited, Bool.or_eq_true, not_or] at h
  simp [addData, visits, Std.ExtTreeSet.size_insert, h.2, Nat.add_assoc]

theorem visits_addInstruction {x : Exploration} {a : Address} (h : ¬ x.isVisited a)
    (i : Instruction) (es : List Edge) (calls : List Address) :
    (x.addInstruction a i es calls).visits = x.visits + 1 := by
  simp only [isVisited, Bool.or_eq_true, not_or] at h
  simp [visits, Std.ExtTreeMap.size_insert, h.1]
  omega

/-- Falls with every address that leaves the queue: a visit uses up three and adds at most
two addresses to the queue. -/
def remaining (queue : Queue Address) (x : Exploration) : Nat :=
  3 * (2 * UInt32.size - x.visits) + queue.toList.length

end Exploration

namespace Processor

/-- The mapped targets among `es` that have not been visited. -/
def pending (img : Image) (x : Exploration) (es : List Edge) : List Address :=
  (es.filter fun e => img.isMapped e.target && !x.isVisited e.target).map Edge.target

/-- Takes addresses from the queue until it is empty or `limit` instructions are known. An
address that was visited before is passed over, one that does not decode is data, and the
mapped targets of an instruction join the queue. -/
def exploreFrom (p : Processor) (img : Image) (limit : Nat) (queue : Queue Address)
    (x : Exploration) : Exploration :=
  match _hq : queue.pop? with
  | none => x
  | some (a, rest) =>
    if limit ≤ x.instructions.size then x
    else if _hv : x.isVisited a then p.exploreFrom img limit rest x
    else
      match p.decode img.read a with
      | .error _ => p.exploreFrom img limit rest (x.addData a)
      | .ok i =>
        let es := p.edges i
        let x' := x.addInstruction a i es (p.callTargets img i)
        p.exploreFrom img limit (rest.pushAll (pending img x' es)) x'
termination_by x.remaining queue
decreasing_by
  · have := Queue.toList_of_pop? _hq
    simp [Exploration.remaining, this]
  · have := Queue.toList_of_pop? _hq
    have := (x.addData a).visits_le
    have hvis := Exploration.visits_addData _hv
    simp only [Exploration.remaining, Queue.toList_of_pop? _hq, List.length_cons]
    omega
  · have := (x.addInstruction a i (p.edges i) (p.callTargets img i)).visits_le
    have hvis := Exploration.visits_addInstruction _hv i (p.edges i) (p.callTargets img i)
    have hpend : (pending img (x.addInstruction a i (p.edges i) (p.callTargets img i))
        (p.edges i)).length ≤ 2 := by
      unfold pending
      rw [List.length_map]
      exact Nat.le_trans (List.length_filter_le _ _) (p.table.length_edges_le i)
    simp only [Exploration.remaining, Queue.toList_of_pop? _hq, List.length_cons,
      Queue.toList_pushAll, List.length_append]
    omega

/-- Follows control from the mapped entries until nothing new is reached, or until `limit`
instructions are known. -/
def explore (p : Processor) (img : Image) (limit : Nat) (entries : List Address) : Exploration :=
  p.exploreFrom img limit (.ofList (entries.filter img.isMapped)) {}

end Processor

end Disassembly
