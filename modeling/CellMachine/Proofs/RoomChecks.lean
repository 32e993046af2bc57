import CellMachine.Proofs.InOrder

/-!
The checks for room. Both zones are guarded by one comparison, which is computed in words and
yet is the comparison of the exact integers: where the words would wrap, the frame or the block
is too large anyway. A frame is reserved from the top of the stack, so reserving it again finds
everything as it is, and it has room for one push less than it has cells.
-/

namespace CellMachine.Machine

open Attempt

variable {ι : Type}

section Frames

variable {m : Machine ι} {frame : Word}

/-- The machine with its stack seated and a frame reserved above the top. -/
def framed (m : Machine ι) (frame : Word) : Machine ι :=
  { m.seated with
    registers := { m.seated.registers with ep := m.seated.registers.sp + frame } }

/-- There is room for the frame below the heap. -/
structure Admits (m : Machine ι) (frame : Word) : Prop where
  frame_ge : 1 ≤ frame.toInt
  below_heap : max m.registers.sp.toInt 0 + frame.toInt < m.registers.hp.toInt

/-- A frame is reserved, refused for its size, or refused for want of room. -/
theorem run_enter_cases (m : Machine ι) (frame : Word) :
    m.Admits frame ∧ (enter frame).run m = .ok () (m.framed frame) ∨
      frame.toInt < 1 ∧ (enter frame).run m = .error (.invalidFrameSize frame) m ∨
      1 ≤ frame.toInt ∧ ¬ m.Admits frame ∧
        (enter frame).run m =
          .error (.stackOverflow m.seated.registers.sp m.registers.ep m.registers.hp)
            m.seated := by
  rw [run_enter_exact]
  by_cases hsize : frame.toInt < 1
  · rw [if_pos hsize]
    exact Or.inr (Or.inl ⟨hsize, rfl⟩)
  rw [if_neg hsize]
  by_cases hroom : m.registers.hp.toInt ≤ max m.registers.sp.toInt 0 + frame.toInt
  · rw [if_pos hroom]
    refine Or.inr (Or.inr ⟨by omega, ?_, rfl⟩)
    rintro ⟨_, hbelow⟩
    omega
  · rw [if_neg hroom]
    exact Or.inl ⟨⟨by omega, by omega⟩, rfl⟩

theorem run_enter_of_admits (h : m.Admits frame) :
    (enter frame).run m = .ok () (m.framed frame) := by
  obtain ⟨_, hrun⟩ | ⟨hsmall, _⟩ | ⟨_, hcrowded, _⟩ := run_enter_cases m frame
  · exact hrun
  · have hsize := h.frame_ge
    omega
  · exact absurd h hcrowded

theorem result_enter_eq_ok_iff : (enter frame).result m = .ok () ↔ m.Admits frame := by
  constructor
  · intro hok
    obtain ⟨hadmits, _⟩ | ⟨_, hrun⟩ | ⟨_, _, hrun⟩ := run_enter_cases m frame
    · exact hadmits
    · cases (result_of_error hrun).symm.trans hok
    · cases (result_of_error hrun).symm.trans hok
  · intro h
    exact result_of_ok (run_enter_of_admits h)

/-- The new ceiling is the exact sum: it lies below the heap, so it is a word. -/
theorem Admits.toInt_ep_framed (h : m.Admits frame) :
    (m.framed frame).registers.ep.toInt = max m.registers.sp.toInt 0 + frame.toInt := by
  obtain ⟨hsize, hroom⟩ := h
  have htop := m.toInt_sp_seated
  have hheap := m.registers.hp.fits
  unfold Word.Fits at hheap
  change (m.seated.registers.sp + frame).toInt = _
  rw [Word.toInt_add, htop]
  unfold Word.Fits
  omega

theorem seated_seated (m : Machine ι) : m.seated.seated = m.seated := by
  have hsp : m.seated.seated.registers.sp = m.seated.registers.sp := by
    apply Word.eq_of_toInt
    rw [toInt_sp_seated, toInt_sp_seated]
    omega
  unfold seated at hsp ⊢
  dsimp only at hsp ⊢
  rw [hsp]

/-- A reserved frame changes neither the top, once the stack is seated, nor the heap. -/
theorem framed_framed (m : Machine ι) (frame : Word) :
    (m.framed frame).framed frame = m.framed frame := by
  have hseated : (m.framed frame).seated = m.framed frame := by
    have htop := congrArg (fun n : Machine ι => n.registers.sp) m.seated_seated
    unfold framed
    generalize m.seated = n at htop ⊢
    unfold seated at htop ⊢
    dsimp only at htop ⊢
    rw [htop]
  have htop : (m.framed frame).registers.sp = m.seated.registers.sp := rfl
  rw [framed, hseated, htop]
  rfl

theorem toInt_sp_framed (m : Machine ι) (frame : Word) :
    (m.framed frame).registers.sp.toInt = max m.registers.sp.toInt 0 := m.toInt_sp_seated

/-- What admits a frame admits it again, from the top that it was reserved at. -/
theorem Admits.framed (h : m.Admits frame) : (m.framed frame).Admits frame := by
  obtain ⟨hsize, hroom⟩ := h
  refine ⟨hsize, ?_⟩
  rw [toInt_sp_framed]
  change _ < m.registers.hp.toInt
  omega

theorem Admits.of_seated (h : m.seated.Admits frame) : m.Admits frame := by
  obtain ⟨hsize, hroom⟩ := h
  refine ⟨hsize, ?_⟩
  rw [toInt_sp_seated] at hroom
  change _ < m.registers.hp.toInt at hroom
  omega

/-- The second time a frame is reserved or refused as it was the first time. A refusal for want
of room has seated the stack, and reports the seated top both times. -/
theorem run_enter_again (m : Machine ι) (frame : Word) :
    (enter frame).run ((enter frame).state m) = (enter frame).run m := by
  obtain ⟨hadmits, hrun⟩ | ⟨_, hrun⟩ | ⟨hsize, hcrowded, hrun⟩ := run_enter_cases m frame
  · rw [state_of_ok hrun, run_enter_of_admits hadmits.framed, framed_framed, hrun]
  · rw [state_of_error hrun]
  · obtain ⟨hadmits, _⟩ | ⟨hsmall, _⟩ | ⟨_, _, hagain⟩ := run_enter_cases m.seated frame
    · exact absurd hadmits.of_seated hcrowded
    · omega
    · rw [seated_seated] at hagain
      rw [state_of_error hrun, hagain, hrun]
      rfl

end Frames

/-- A block is taken from below the heap, or it would reach below the ceiling. -/
theorem run_allocate_cases {m : Machine ι} (hep : 0 ≤ m.registers.ep.toInt) (units : Nat) :
    m.registers.ep.toInt ≤ m.registers.hp.toInt - units ∧
        (∃ hp : Word, hp.toInt = m.registers.hp.toInt - units ∧
          (allocate units).run m = .ok (.ptr hp) { m with registers := { m.registers with hp } }) ∨
      m.registers.hp.toInt - units < m.registers.ep.toInt ∧
        (allocate units).run m = .error (.outOfMemory units m.registers.ep m.registers.hp) m := by
  rw [run_allocate_exact hep]
  by_cases hroom : m.registers.hp.toInt - units < m.registers.ep.toInt
  · rw [if_pos hroom]
    exact Or.inr ⟨hroom, rfl⟩
  · rw [if_neg hroom]
    have hheap := m.registers.hp.fits
    refine Or.inl ⟨by omega, _, Word.toInt_wrap ?_, rfl⟩
    unfold Word.Fits at hheap ⊢
    omega

section Pushes

variable {m : Machine ι}

/-- The pushes that the stack has room for. -/
def room (m : Machine ι) : Nat := (m.registers.ep.toInt - m.registers.sp.toInt - 1).toNat

/-- What a push answers when the stack has reached its ceiling. -/
def overflowAtCeiling (m : Machine ι) : Fault :=
  .stackOverflow (m.registers.ep - 1) m.registers.ep m.registers.hp

theorem StackFits.room_pushed (h : m.StackFits) (v : Value) :
    (m.pushed v).room = m.room - 1 := by
  have hsucc := h.toInt_sp_succ
  change (m.registers.ep.toInt - (m.registers.sp + 1).toInt - 1).toNat = m.room - 1
  unfold room
  omega

theorem StackFits.pushed (h : m.StackFits) (hroom : 0 < m.room) (v : Value) :
    (m.pushed v).StackFits := by
  have hsucc := h.toInt_sp_succ
  obtain ⟨hlow, hlt, hsize⟩ := h
  unfold room at hroom
  refine ⟨?_, ?_, ?_⟩
  · change -1 ≤ (m.registers.sp + 1).toInt
    omega
  · change (m.registers.sp + 1).toInt < m.registers.ep.toInt
    omega
  · change m.registers.ep.toInt ≤ (m.memory.put (m.registers.sp + 1) v).size
    rw [Memory.size_put]
    exact hsize

theorem StackFits.run_push_of_room (h : m.StackFits) (hroom : 0 < m.room) (v : Value) :
    (push v).run m = .ok () (m.pushed v) := by
  unfold room at hroom
  rw [h.run_push, if_neg (by omega)]

/-- The cell below the ceiling. -/
theorem StackFits.toInt_ep_pred (h : m.StackFits) :
    (m.registers.ep - 1).toInt = m.registers.ep.toInt - 1 := by
  obtain ⟨hlow, hlt, _⟩ := h
  have hceiling := m.registers.ep.fits
  unfold Word.Fits at hceiling
  rw [Word.toInt_sub, Word.toInt_one]
  rw [Word.toInt_one]
  unfold Word.Fits
  omega

/-- Where there is no room, the top is the cell below the ceiling. -/
theorem StackFits.run_push_of_full (h : m.StackFits) (hroom : m.room = 0) (v : Value) :
    (push v).run m = .error m.overflowAtCeiling m := by
  have hlt := h.sp_lt
  unfold room at hroom
  have htop : m.registers.sp = m.registers.ep - 1 := by
    apply Word.eq_of_toInt
    rw [h.toInt_ep_pred]
    omega
  rw [h.run_push, if_pos (by omega), htop]
  rfl

/-- A frame that ends inside memory can be filled but for one of its cells, which is the top. -/
theorem Admits.stackFits_framed {frame : Word} (h : m.Admits frame)
    (hinside : (m.framed frame).registers.ep.toInt ≤ (m.framed frame).memory.size) :
    (m.framed frame).StackFits ∧ (m.framed frame).room = (frame.toInt - 1).toNat := by
  have hep := h.toInt_ep_framed
  have hsp := m.toInt_sp_framed frame
  have hsize := h.frame_ge
  refine ⟨⟨by omega, by omega, hinside⟩, ?_⟩
  unfold room
  omega

/-- Pushes one after the other succeed as long as there is room, and all that follow fail. The
induction is on the values; every push that succeeds leaves room for one less. -/
theorem StackFits.answers_push (h : m.StackFits) (vs : List Value) :
    answers push vs m =
      List.replicate (min vs.length m.room) (.ok ()) ++
        List.replicate (vs.length - m.room) (.error m.overflowAtCeiling) := by
  induction vs generalizing m with
  | nil => simp [answers]
  | cons v rest ih =>
      rw [answers]
      rcases Nat.eq_zero_or_pos m.room with hfull | hroom
      · have hrun := h.run_push_of_full hfull v
        rw [result_of_error hrun, state_of_error hrun, ih h, hfull]
        simp [List.replicate_succ]
      · have hrun := h.run_push_of_room hroom v
        have hsame : (m.pushed v).overflowAtCeiling = m.overflowAtCeiling := rfl
        have hless : min (rest.length + 1) m.room = min rest.length (m.room - 1) + 1 := by omega
        have hmore : rest.length + 1 - m.room = rest.length - (m.room - 1) := by omega
        rw [result_of_ok hrun, state_of_ok hrun, ih (h.pushed hroom v), h.room_pushed, hsame,
          List.length_cons, hless, hmore]
        rfl

end Pushes

/-- The checks for room compare exact integers, for all values of the registers, all frames and
all sizes of blocks. A frame is reserved exactly if it has a cell at least and ends below the
heap, counted from the seated top. The ceiling is then that sum; otherwise ceiling and heap
stay, and the fault is for the size exactly if the frame has no cell. A block is taken exactly
if it does not reach below the ceiling, provided that the ceiling is not negative. The heap then
begins at that difference, and the block as well; otherwise ceiling and heap stay. -/
theorem room_checks_are_exact (m : Machine ι) (frame : Word) (units : Nat) :
    let r := m.registers
    let top := m.seated.registers.sp
    let entered := (enter frame).state m
    let allocated := (allocate units).state m
    top.toInt = max r.sp.toInt 0 ∧
      ((enter frame).result m = .ok () ↔
        1 ≤ frame.toInt ∧ max r.sp.toInt 0 + frame.toInt < r.hp.toInt) ∧
      ((enter frame).result m = .ok () →
        entered.registers.ep.toInt = max r.sp.toInt 0 + frame.toInt ∧
          entered.registers.hp = r.hp) ∧
      (∀ f, (enter frame).result m = .error f →
        entered.registers.ep = r.ep ∧ entered.registers.hp = r.hp ∧
          (f = .invalidFrameSize frame ↔ frame.toInt < 1) ∧
          (1 ≤ frame.toInt → f = .stackOverflow top r.ep r.hp)) ∧
      (0 ≤ r.ep.toInt →
        ((∃ block, (allocate units).result m = .ok block) ↔
          r.ep.toInt ≤ r.hp.toInt - units) ∧
        (∀ block, (allocate units).result m = .ok block →
          allocated.registers.hp.toInt = r.hp.toInt - units ∧
            block = .ptr allocated.registers.hp ∧ allocated.registers.ep = r.ep) ∧
        ∀ f, (allocate units).result m = .error f →
          f = .outOfMemory units r.ep r.hp ∧
            allocated.registers.ep = r.ep ∧ allocated.registers.hp = r.hp) := by
  intro r top entered allocated
  refine ⟨m.toInt_sp_seated, ?_, ?_, ?_, ?_⟩
  · rw [result_enter_eq_ok_iff]
    exact ⟨fun h => ⟨h.frame_ge, h.below_heap⟩, fun h => ⟨h.1, h.2⟩⟩
  · intro hok
    have hadmits := result_enter_eq_ok_iff.mp hok
    have hentered : entered = m.framed frame := state_of_ok (run_enter_of_admits hadmits)
    rw [hentered]
    exact ⟨hadmits.toInt_ep_framed, rfl⟩
  · intro f hf
    obtain ⟨_, hrun⟩ | ⟨hsmall, hrun⟩ | ⟨hsize, _, hrun⟩ := run_enter_cases m frame
    · cases (result_of_ok hrun).symm.trans hf
    · cases (result_of_error hrun).symm.trans hf
      have hentered : entered = m := state_of_error hrun
      rw [hentered]
      exact ⟨rfl, rfl, iff_of_true rfl hsmall, fun hsize => by omega⟩
    · cases (result_of_error hrun).symm.trans hf
      have hentered : entered = m.seated := state_of_error hrun
      rw [hentered]
      exact ⟨rfl, rfl, iff_of_false (by simp) (by omega), fun _ => rfl⟩
  · intro hep
    obtain ⟨hroom, hp, hexact, hrun⟩ | ⟨hroom, hrun⟩ := run_allocate_cases hep units
    · have hallocated : allocated = _ := state_of_ok hrun
      rw [hallocated, result_of_ok hrun]
      refine ⟨iff_of_true ⟨_, rfl⟩ hroom, ?_, by simp⟩
      intro block hblock
      cases hblock
      exact ⟨hexact, rfl, rfl⟩
    · have hallocated : allocated = m := state_of_error hrun
      rw [hallocated, result_of_error hrun]
      refine ⟨iff_of_false (by simp) (Int.not_le.mpr hroom), by simp, ?_⟩
      intro f hf
      cases hf
      exact ⟨rfl, rfl, rfl⟩

/-- The largest number that a word can hold. -/
def lastWord : Word := ⟨0x7fffffffffffffff, by decide⟩

/-- The stack has two values and the heap begins at the last word. -/
def heapAtLastWord : Machine Empty where
  config := ⟨1, 1, 0⟩
  registers := ⟨0, 0, 1, 0, lastWord⟩
  memory := .zeros 1
  store := #[.padding]
  labels := ∅
  overlay := []
  output := .empty
  running := true

/-- In words the end of the frame would be the lowest of all, and thus below the heap. A block
of all cells down to the ceiling is taken, and one of a cell more is not. -/
theorem checks_hold_at_last_word :
    0 ≤ heapAtLastWord.registers.ep.toInt ∧
      (heapAtLastWord.registers.sp + lastWord).toInt < heapAtLastWord.registers.hp.toInt ∧
      (enter lastWord).result heapAtLastWord ≠ .ok () ∧
      (∃ block, (allocate 0x7fffffffffffffff).result heapAtLastWord = .ok block) ∧
      ¬ ∃ block, (allocate 0x8000000000000000).result heapAtLastWord = .ok block := by
  have hep : 0 ≤ heapAtLastWord.registers.ep.toInt := by decide
  obtain ⟨_, hframe, _, _, hblock⟩ :=
    room_checks_are_exact heapAtLastWord lastWord 0x7fffffffffffffff
  obtain ⟨_, _, _, _, hmore⟩ :=
    room_checks_are_exact heapAtLastWord lastWord 0x8000000000000000
  refine ⟨hep, by decide, ?_, (hblock hep).1.mpr (by decide), ?_⟩
  · rw [Ne, hframe]
    decide
  · rw [(hmore hep).1]
    decide

/-- Reserving a frame is idempotent, for all values of the registers and every frame. The second
time it has the same result as the first, faults and what they report included, and leaves the
machine as it was left by the first. If the frame was reserved and ends inside memory, the
stack has room for one push less than the frame has cells: of any sequence of pushes as many
succeed, and every further one finds the stack full. -/
theorem repeated_frame_is_reserved_once (m : Machine ι) (frame : Word) :
    let first := (enter frame).state m
    let r := first.registers
    (enter frame).result first = (enter frame).result m ∧
      (enter frame).state first = first ∧
      ((enter frame).result m = .ok () → r.ep.toInt ≤ first.memory.size →
        r.ep.toInt - r.sp.toInt - 1 = frame.toInt - 1 ∧
          ∀ vs : List Value,
            answers push vs first =
              List.replicate (min vs.length (frame.toInt - 1).toNat) (.ok ()) ++
                List.replicate (vs.length - (frame.toInt - 1).toNat)
                  (.error (.stackOverflow (r.ep - 1) r.ep r.hp))) := by
  intro first r
  have hagain : (enter frame).run first = (enter frame).run m := run_enter_again m frame
  refine ⟨?_, ?_, ?_⟩
  · rw [result, result, hagain]
  · rw [state_eq, hagain]
    rfl
  · intro hok hinside
    have hadmits := result_enter_eq_ok_iff.mp hok
    have hfirst : first = m.framed frame := state_of_ok (run_enter_of_admits hadmits)
    have hep : r.ep.toInt = max m.registers.sp.toInt 0 + frame.toInt := by
      rw [← hadmits.toInt_ep_framed, ← hfirst]
    have hsp : r.sp.toInt = max m.registers.sp.toInt 0 := by
      rw [← m.toInt_sp_framed frame, ← hfirst]
    refine ⟨by omega, ?_⟩
    intro vs
    obtain ⟨hfits, hroom⟩ := hadmits.stackFits_framed (by rw [← hfirst]; exact hinside)
    rw [← hfirst] at hfits hroom
    rw [hfits.answers_push, hroom]
    rfl

/-- An empty stack in a memory of five cells. -/
def fiveCells : Machine Empty where
  config := ⟨1, 5, 2⟩
  registers := .initial ⟨1, 5, 2⟩
  memory := .zeros 5
  store := #[.padding]
  labels := ∅
  overlay := []
  output := .empty
  running := true

/-- A frame of four cells is the largest that is admitted. It ends at the last cell but one and
takes three values more, and a fourth and a fifth are refused alike. -/
theorem frame_of_four_takes_three_pushes :
    (enter 4).result fiveCells = .ok () ∧
      ((enter 4).state fiveCells).registers.ep.toInt ≤
        ((enter 4).state fiveCells).memory.size ∧
      (enter 4).result ((enter 4).state fiveCells) = .ok () ∧
      (enter 4).state ((enter 4).state fiveCells) = (enter 4).state fiveCells ∧
      answers push (List.replicate 5 .zero) ((enter 4).state fiveCells) =
        [.ok (), .ok (), .ok (), .error (.stackOverflow 3 4 5),
          .error (.stackOverflow 3 4 5)] := by
  obtain ⟨hresult, hstate, hpushes⟩ := repeated_frame_is_reserved_once fiveCells 4
  have hok : (enter 4).result fiveCells = .ok () := rfl
  have hinside : ((enter 4).state fiveCells).registers.ep.toInt ≤
      ((enter 4).state fiveCells).memory.size := by decide
  exact ⟨hok, hinside, hresult.trans hok, hstate, (hpushes hok hinside).2 _⟩

end CellMachine.Machine
