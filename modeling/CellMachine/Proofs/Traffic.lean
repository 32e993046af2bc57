import CellMachine.Proofs.BoundedStack
import Mathlib.Control.Monad.Basic

/-!
Stack and heap serve two clients who take no notice of each other. One pushes, pops and
looks at the top, the other takes blocks. However their requests are interleaved, the
machine ends in the same state and each client gets the answers that it would have got
alone. Only the report of a full stack tells where the heap has got to.
-/

namespace CellMachine

variable {ι : Type}

namespace Attempt

variable {ε σ α β γ κ μ : Type}

/-- The list has the requests of two clients, those of each in their order. -/
inductive Interleaving : List κ → List μ → List (κ ⊕ μ) → Prop where
  | nil : Interleaving [] [] []
  | left {k : κ} {ks : List κ} {js : List μ} {mixed : List (κ ⊕ μ)} :
      Interleaving ks js mixed → Interleaving (k :: ks) js (.inl k :: mixed)
  | right {j : μ} {ks : List κ} {js : List μ} {mixed : List (κ ⊕ μ)} :
      Interleaving ks js mixed → Interleaving ks (j :: js) (.inr j :: mixed)

/-- What two clients get, and the state that they leave together. -/
structure Served (ε σ α β : Type) where
  state : σ
  left : List (Except ε α)
  right : List (Except ε β)

/-- Serves the requests of two clients one after the other, whether they fail or not. -/
def serve (f : κ → Attempt ε σ α) (g : μ → Attempt ε σ β) :
    List (κ ⊕ μ) → σ → Served ε σ α β
  | [], s => ⟨s, [], []⟩
  | .inl k :: rest, s =>
      let later := serve f g rest ((f k).state s)
      { later with left := (f k).result s :: later.left }
  | .inr j :: rest, s =>
      let later := serve f g rest ((g j).state s)
      { later with right := (g j).result s :: later.right }

/-- The computation takes no notice of the change `c` of its state, as far as `view`
shows the answer. -/
structure Ignores (view : Except ε α → γ) (c : σ → σ) (x : Attempt ε σ α) : Prop where
  result : ∀ s, view (x.result (c s)) = view (x.result s)
  state : ∀ s, x.state (c s) = c (x.state s)

/-- A change that each request ignores is ignored by a sequence of them. -/
theorem Ignores.sequence {view : Except ε α → γ} {c : σ → σ} {f : κ → Attempt ε σ α}
    (h : ∀ k, Ignores view c (f k)) (ks : List κ) (s : σ) :
    (answers f ks (c s)).map view = (answers f ks s).map view ∧
      stateAfter f ks (c s) = c (stateAfter f ks s) := by
  induction ks generalizing s with
  | nil => exact ⟨rfl, rfl⟩
  | cons k rest ih =>
      obtain ⟨hanswers, hend⟩ := ih ((f k).state s)
      constructor
      · simp only [answers, List.map_cons, (h k).result s, (h k).state s, hanswers]
      · simp only [stateAfter, (h k).state s, hend]

theorem Ignores.map {e : ε → ε} {c : σ → σ} {x : Attempt ε σ α}
    (h : Ignores (Except.mapError e) c x) (f : α → β) :
    Ignores (Except.mapError e) c (f <$> x) := by
  have hview (r : Except ε α) : (r.map f).mapError e = (r.mapError e).map f := by
    cases r <;> rfl
  constructor
  · intro s
    rw [result_map, result_map, hview, hview, h.result s]
  · intro s
    rw [state_map, state_map, h.state s]

/-- No request of one client is noticed by the other. -/
structure Independent (view : Except ε α → γ) (f : κ → Attempt ε σ α)
    (g : μ → Attempt ε σ β) : Prop where
  left : ∀ k j, Ignores view (g j).state (f k)
  right : ∀ k j, Ignores id (f k).state (g j)

/-- Independent clients are served as if the second came after the first was done, and
each gets what it would have got alone. The induction is on the interleaving: a request
of the second client is passed over all that the first has still to ask. -/
theorem Independent.serve_eq {view : Except ε α → γ} {f : κ → Attempt ε σ α}
    {g : μ → Attempt ε σ β} (h : Independent view f g) {ks : List κ} {js : List μ}
    {mixed : List (κ ⊕ μ)} (hmixed : Interleaving ks js mixed) (s : σ) :
    (serve f g mixed s).state = stateAfter g js (stateAfter f ks s) ∧
      (serve f g mixed s).left.map view = (answers f ks s).map view ∧
      (serve f g mixed s).right = answers g js s := by
  induction hmixed generalizing s with
  | nil => exact ⟨rfl, rfl, rfl⟩
  | @left k ks js mixed _ ih =>
      obtain ⟨hstate, hleft, hright⟩ := ih ((f k).state s)
      have halone := (Ignores.sequence (fun j => h.right k j) js s).1
      simp only [List.map_id] at halone
      refine ⟨hstate, ?_, hright.trans halone⟩
      simp only [serve, answers, List.map_cons, hleft]
  | @right j ks js mixed _ ih =>
      obtain ⟨hstate, hleft, hright⟩ := ih ((g j).state s)
      obtain ⟨halone, hpassed⟩ := Ignores.sequence (fun k => h.left k j) ks s
      refine ⟨?_, hleft.trans halone, ?_⟩
      · simp only [serve, stateAfter, hstate, hpassed]
      · simp only [serve, answers, hright]

end Attempt

open Attempt

/-- The requests that concern the stack alone. -/
def Request.OnStack : Request → Prop
  | .push _ | .pop | .peek => True
  | .allocate _ | .enter _ => False

abbrev StackRequest := { k : Request // k.OnStack }

/-- The fault without the place where the heap began, which a full stack reports. -/
def Fault.forgetHeap : Fault → Fault
  | .stackOverflow sp ep _ => .stackOverflow sp ep 0
  | f => f

namespace Machine

/-- The machine with another beginning of the heap. -/
def moveHeap (hp : Word) (m : Machine ι) : Machine ι :=
  { m with registers := { m.registers with hp } }

/-- The computation works below the ceiling: it leaves the ceiling and the heap where
they are, and where the heap begins has no influence but on the report of a full stack. -/
structure BelowCeiling {α : Type} (x : Exec ι α) : Prop where
  ignores : ∀ hp, Ignores (Except.mapError Fault.forgetHeap) (moveHeap hp) x
  ep : ∀ m, (x.state m).registers.ep = m.registers.ep
  hp : ∀ m, (x.state m).registers.hp = m.registers.hp

variable {α β : Type}

theorem BelowCeiling.map {x : Exec ι α} (h : BelowCeiling x) (f : α → β) :
    BelowCeiling (f <$> x) where
  ignores hp := (h.ignores hp).map f
  ep m := by rw [state_map, h.ep]
  hp m := by rw [state_map, h.hp]

/-- A computation is ignorant of the heap if it ends alike wherever the heap begins. -/
theorem ignores_moveHeap {x : Exec ι α}
    (h : ∀ (hp : Word) (m : Machine ι),
      (∃ a t, x.run m = .ok a t ∧ x.run (m.moveHeap hp) = .ok a (t.moveHeap hp)) ∨
        ∃ f g t, x.run m = .error f t ∧ x.run (m.moveHeap hp) = .error g (t.moveHeap hp) ∧
          g.forgetHeap = f.forgetHeap) (hp : Word) :
    Ignores (Except.mapError Fault.forgetHeap) (moveHeap hp) x := by
  constructor
  · intro m
    obtain ⟨a, t, hrun, hmoved⟩ | ⟨f, g, t, hrun, hmoved, hforget⟩ := h hp m
    · rw [result_of_ok hrun, result_of_ok hmoved]
    · rw [result_of_error hrun, result_of_error hmoved]
      simp [Except.mapError, hforget]
  · intro m
    obtain ⟨a, t, hrun, hmoved⟩ | ⟨f, g, t, hrun, hmoved, _⟩ := h hp m
    · rw [state_of_ok hrun, state_of_ok hmoved]
    · rw [state_of_error hrun, state_of_error hmoved]

theorem push_belowCeiling (v : Value) : BelowCeiling (push v : Exec ι Unit) where
  ignores := ignores_moveHeap fun hp m => by
    rw [run_push, run_push]
    by_cases hfull : m.registers.ep ≤ m.registers.sp + 1
    · have hmoved : (m.moveHeap hp).registers.ep ≤ (m.moveHeap hp).registers.sp + 1 := hfull
      rw [if_pos hfull, if_pos hmoved]
      exact Or.inr ⟨_, _, m, rfl, rfl, rfl⟩
    · have hmoved : ¬ (m.moveHeap hp).registers.ep ≤ (m.moveHeap hp).registers.sp + 1 := hfull
      rw [if_neg hfull, if_neg hmoved]
      cases hlocate : m.memory.locate (m.registers.sp + 1) with
      | ok i =>
          have hsame : (m.moveHeap hp).memory.locate ((m.moveHeap hp).registers.sp + 1) =
            .ok i := hlocate
          rw [hsame]
          exact Or.inl ⟨(), _, rfl, rfl⟩
      | error f =>
          have hsame : (m.moveHeap hp).memory.locate ((m.moveHeap hp).registers.sp + 1) =
            .error f := hlocate
          rw [hsame]
          exact Or.inr ⟨f, f, m, rfl, rfl, rfl⟩
  ep m := by obtain h | ⟨_, _, _, h⟩ := state_push_cases v m <;> rw [h]
  hp m := by obtain h | ⟨_, _, _, h⟩ := state_push_cases v m <;> rw [h]

/-- A look at the top ends alike wherever the heap begins, and changes nothing. -/
theorem run_peek_moveHeap (hp : Word) (m : Machine ι) :
    (∃ v, peek.run m = .ok v m ∧ peek.run (m.moveHeap hp) = .ok v (m.moveHeap hp)) ∨
      ∃ f, peek.run m = .error f m ∧ peek.run (m.moveHeap hp) = .error f (m.moveHeap hp) := by
  have hsp : (m.moveHeap hp).registers.sp = m.registers.sp := rfl
  have hmemory : (m.moveHeap hp).memory = m.memory := rfl
  rw [run_peek, run_peek, hsp, hmemory]
  by_cases hempty : m.registers.sp < 0
  · rw [if_pos hempty, if_pos hempty]
    exact Or.inr ⟨_, rfl, rfl⟩
  · rw [if_neg hempty, if_neg hempty]
    cases m.memory.read m.registers.sp with
    | ok v => exact Or.inl ⟨v, rfl, rfl⟩
    | error f => exact Or.inr ⟨f, rfl, rfl⟩

theorem peek_belowCeiling : BelowCeiling (peek : Exec ι Value) where
  ignores := ignores_moveHeap fun hp m => by
    obtain ⟨v, hm, hmoved⟩ | ⟨f, hm, hmoved⟩ := run_peek_moveHeap hp m
    · exact Or.inl ⟨v, m, hm, hmoved⟩
    · exact Or.inr ⟨f, f, m, hm, hmoved, rfl⟩
  ep m := by rw [state_peek]
  hp m := by rw [state_peek]

theorem pop_belowCeiling : BelowCeiling (pop : Exec ι Value) where
  ignores := ignores_moveHeap fun hp m => by
    obtain ⟨v, hm, hmoved⟩ | ⟨f, hm, hmoved⟩ := run_peek_moveHeap hp m
    · exact Or.inl ⟨v, m.popped, run_bind_of_ok hm _, run_bind_of_ok hmoved _⟩
    · exact Or.inr ⟨f, f, m, run_bind_of_error hm _, run_bind_of_error hmoved _, rfl⟩
  ep m := by obtain h | ⟨_, h⟩ := state_pop_cases m <;> rw [h]
  hp m := by obtain h | ⟨_, h⟩ := state_pop_cases m <;> rw [h]

theorem request_belowCeiling (k : StackRequest) :
    BelowCeiling (k.val.perform : Exec ι (Option Value)) := by
  obtain ⟨k, hk⟩ := k
  cases k with
  | push v => exact (push_belowCeiling v).map _
  | pop => exact pop_belowCeiling.map _
  | peek => exact peek_belowCeiling.map _
  | allocate units => exact hk.elim
  | enter frame => exact hk.elim

/-- An allocation looks at ceiling and heap and at nothing else, and moves nothing but
the heap. -/
theorem run_allocate_alike (units : Nat) {m n : Machine ι}
    (hep : n.registers.ep = m.registers.ep) (hhp : n.registers.hp = m.registers.hp) :
    (∃ block hp, (allocate units).run m = .ok block (m.moveHeap hp) ∧
        (allocate units).run n = .ok block (n.moveHeap hp)) ∨
      ∃ f, (allocate units).run m = .error f m ∧ (allocate units).run n = .error f n := by
  have hother := run_allocate units n
  rw [hep, hhp] at hother
  rw [run_allocate, hother]
  cases heapBelow? m.registers.hp units with
  | none => exact Or.inr ⟨_, rfl, rfl⟩
  | some hp =>
      dsimp only
      by_cases hroom : hp < m.registers.ep
      · rw [if_pos hroom, if_pos hroom]
        exact Or.inr ⟨_, rfl, rfl⟩
      · rw [if_neg hroom, if_neg hroom]
        exact Or.inl ⟨_, hp, rfl, rfl⟩

/-- What works below the ceiling and what takes blocks are independent. -/
theorem BelowCeiling.ignores_allocate {x : Exec ι α} (h : BelowCeiling x) (units : Nat) :
    Ignores (Except.mapError Fault.forgetHeap) (allocate units).state x ∧
      Ignores id x.state (allocate units) := by
  have halike (m : Machine ι) := run_allocate_alike units (h.ep m) (h.hp m)
  have hcommute (m : Machine ι) :
      x.state ((allocate units).state m) = (allocate units).state (x.state m) := by
    obtain ⟨_, hp, hm, hx⟩ | ⟨f, hm, hx⟩ := halike m
    · rw [state_of_ok hm, state_of_ok hx, (h.ignores hp).state]
    · rw [state_of_error hm, state_of_error hx]
  refine ⟨⟨?_, hcommute⟩, ⟨?_, fun m => (hcommute m).symm⟩⟩
  · intro m
    obtain ⟨_, hp, hm, _⟩ | ⟨f, hm, _⟩ := halike m
    · rw [state_of_ok hm, (h.ignores hp).result]
    · rw [state_of_error hm]
  · intro m
    obtain ⟨_, hp, hm, hx⟩ | ⟨f, hm, hx⟩ := halike m
    · rw [result_of_ok hm, result_of_ok hx]
    · rw [result_of_error hm, result_of_error hx]

/-- Serves requests to the stack and requests for blocks of the heap. -/
def serveZones (mixed : List (StackRequest ⊕ Nat)) (m : Machine ι) :
    Served Fault (Machine ι) (Option Value) Value :=
  serve (fun k => k.val.perform) allocate mixed m

theorem zones_independent :
    Independent (Except.mapError Fault.forgetHeap)
      (fun k : StackRequest => (k.val.perform : Exec ι (Option Value))) allocate where
  left k units := ((request_belowCeiling k).ignores_allocate units).1
  right k units := ((request_belowCeiling k).ignores_allocate units).2

/-- Stack and heap traffic are independent, on every machine and also where requests
fail. Any two interleavings of the same pushes, pops and looks at the top with the same
requests for blocks leave the same machine. Each stack request is answered with the
same value or the same fault in both, where the report of a full stack may differ in
the place of the heap, and each request for a block gets the same pointer or fault. -/
theorem stack_and_heap_traffic_independent (m : Machine ι) {stack : List StackRequest}
    {heap : List Nat} {first second : List (StackRequest ⊕ Nat)}
    (hfirst : Interleaving stack heap first) (hsecond : Interleaving stack heap second) :
    (m.serveZones first).state = (m.serveZones second).state ∧
      (m.serveZones first).left.map (Except.mapError Fault.forgetHeap) =
        (m.serveZones second).left.map (Except.mapError Fault.forgetHeap) ∧
      (m.serveZones first).right = (m.serveZones second).right := by
  obtain ⟨hstate, hleft, hright⟩ := zones_independent.serve_eq hfirst m
  obtain ⟨hstate', hleft', hright'⟩ := zones_independent.serve_eq hsecond m
  exact ⟨hstate.trans hstate'.symm, hleft.trans hleft'.symm, hright.trans hright'.symm⟩

/-- One value more than the stack holds, and one pop more than there are values. -/
def fourStackRequests : List StackRequest :=
  [⟨.push (.int 7), trivial⟩, ⟨.push (.int 8), trivial⟩, ⟨.pop, trivial⟩, ⟨.pop, trivial⟩]

/-- The stack is full before the heap grows. -/
def stackFirst : List (StackRequest ⊕ Nat) := fourStackRequests.map .inl ++ [.inr 2, .inr 2]

/-- The heap has grown, and refused a second block, before the stack is full. -/
def heapFirst : List (StackRequest ⊕ Nat) := [.inr 2, .inr 2] ++ fourStackRequests.map .inl

theorem full_stack_reports_heap :
    let m : Machine Empty := blank ⟨1, 4, 1⟩
    Interleaving fourStackRequests [2, 2] stackFirst ∧
      Interleaving fourStackRequests [2, 2] heapFirst ∧
      (m.serveZones stackFirst).left =
        [.ok none, .error (.stackOverflow 0 1 4), .ok (some (.int 7)),
          .error (.stackUnderflow (-1))] ∧
      (m.serveZones heapFirst).left =
        [.ok none, .error (.stackOverflow 0 1 2), .ok (some (.int 7)),
          .error (.stackUnderflow (-1))] ∧
      (m.serveZones heapFirst).right = [.ok (.ptr 2), .error (.outOfMemory 2 1 2)] ∧
      (m.serveZones stackFirst).right = (m.serveZones heapFirst).right ∧
      (m.serveZones stackFirst).state = (m.serveZones heapFirst).state := by
  intro m
  have hstackFirst : Interleaving fourStackRequests [2, 2] stackFirst :=
    .left (.left (.left (.left (.right (.right .nil)))))
  have hheapFirst : Interleaving fourStackRequests [2, 2] heapFirst :=
    .right (.right (.left (.left (.left (.left .nil)))))
  obtain ⟨hstate, _, hright⟩ := stack_and_heap_traffic_independent m hstackFirst hheapFirst
  exact ⟨hstackFirst, hheapFirst, by decide +kernel, by decide +kernel, by decide +kernel,
    hright, hstate⟩

end Machine

end CellMachine
