import CellMachine.Proofs.BoundedStack
import CellMachine.Proofs.HostLoop
import CellMachine.Proofs.RequestedBreakpoints

/-!
Sessions of the command line. A session runs its machine again after every breakpoint, so it is
a host loop and comes to an end. Its answer is settled by its runs: what they print, the journal
of each of them, and the reason of the last. At every pause the registers still divide memory,
so that there is a stack to show.
-/

namespace CellMachine

variable {ι : Type}

/-- Once the turns are enough for a run, its journal does not depend on how many there are. -/
theorem Journal.ofRun_congr [Host ι] {r : Runner} {m : Machine ι} {n : Nat}
    (hon : ∀ j < n, (r.afterSteps j).GoesOn (m.afterSteps j)) {reason : StopReason}
    (hstop : (r.afterSteps n).StopsFor (m.afterSteps n) reason) (events : Array Event)
    {fuel more : Nat} (hfuel : n < fuel) (hmore : n < more) :
    ofRun events fuel r m = ofRun events more r m := by
  obtain ⟨fuel, rfl⟩ := Nat.exists_eq_add_one.mpr (Nat.zero_lt_of_lt hfuel)
  obtain ⟨more, rfl⟩ := Nat.exists_eq_add_one.mpr (Nat.zero_lt_of_lt hmore)
  induction n generalizing r m events fuel more with
  | zero =>
      have hturn : r.turn m = .stopped reason _ _ := Runner.turn_of_stopsFor hstop
      simp only [ofRun, hturn]
  | succ n ih =>
      obtain ⟨fuel, rfl⟩ := Nat.exists_eq_add_one.mpr (show 0 < fuel by omega)
      obtain ⟨more, rfl⟩ := Nat.exists_eq_add_one.mpr (show 0 < more by omega)
      have hgo : r.GoesOn m := hon 0 (by omega)
      have hnext (j : Nat) (hj : j < n) :
          ((r.afterSteps 1).afterSteps j).GoesOn ((Machine.step.state m).afterSteps j) := by
        rw [← Runner.afterSteps_succ, ← Machine.afterSteps_succ]
        exact hon (j + 1) (by omega)
      rw [Runner.afterSteps_succ, Machine.afterSteps_succ] at hstop
      rw [ofRun, ofRun]
      simp only [Runner.turn_of_goesOn hgo]
      exact ih hnext hstop _ fuel (by omega) more (by omega)

namespace CommandLine

variable {r : Runner} {m : Machine Empty} {o : Outcome Empty}

/-- What a session shows of a run. -/
def shownOf (r : Runner) (m : Machine Empty) (o : Outcome Empty) : List Piece :=
  (Journal.ofRun #[] (o.steps + 1) r m).toList.map .event ++ [.text o.output]

/-- What a session shows before it goes on after a breakpoint. -/
def reportOf (pc : Word) (o : Outcome Empty) (stack : List Value) : Event :=
  .continuing pc o.machine.registers.sp o.machine.registers.ep o.machine.registers.hp stack

/-- How a session ends, unless it goes on. -/
def ending? (o : Outcome Empty) : Option (List Piece × Nat) :=
  match o.reason with
  | .halted => some ([.text "\n"], 0)
  | .stepLimit => some ([.text "\n", .event (.limitReached o.runner.totalSteps)], 0)
  | .fault pc f => some ([.text "\n", .event (.runtimeError pc f)], 2)
  | .breakpoint _ => none

theorem exists_ending (h : ¬ o.IsPause) : ∃ answer, ending? o = some answer := by
  unfold ending?
  cases hreason : o.reason with
  | breakpoint pc => exact absurd ⟨pc, hreason⟩ h
  | halted => exact ⟨_, rfl⟩
  | stepLimit => exact ⟨_, rfl⟩
  | fault pc f => exact ⟨_, rfl⟩

theorem events_of_run {fuel : Nat} (h : r.run fuel m = some o) {turns : Nat}
    (hturns : o.steps < turns) :
    Journal.ofRun #[] turns r m = Journal.ofRun #[] (o.steps + 1) r m := by
  obtain ⟨_, hon, hstop, _⟩ := Runner.run_eq_some_iff.mp h
  exact Journal.ofRun_congr hon hstop #[] hturns (Nat.lt_succ_self _)

theorem drive_of_pause {turns : Nat} (h : r.run turns m = some o) {pc : Word}
    (hreason : o.reason = .breakpoint pc) {stack : List Value}
    (hstack : o.machine.stack? = some stack) (pauses : Nat) :
    drive turns (pauses + 1) r m =
      (drive turns pauses o.runner o.machine).map fun (rest, code) =>
        (shownOf r m o ++ .event (reportOf pc o stack) :: rest, code) := by
  have hevents := events_of_run h (Runner.run_eq_some_iff.mp h).1
  rw [drive, h]
  simp only [Option.bind_eq_bind, Option.bind_some, hreason, hevents, hstack]
  rw [Option.map_eq_bind]
  rfl

theorem drive_of_end {turns : Nat} (h : r.run turns m = some o) (hend : ¬ o.IsPause)
    (pauses : Nat) :
    drive turns (pauses + 1) r m =
      (ending? o).map fun (rest, code) => (shownOf r m o ++ rest, code) := by
  have hevents := events_of_run h (Runner.run_eq_some_iff.mp h).1
  rw [drive, h]
  simp only [Option.bind_eq_bind, Option.bind_some, hevents, ending?]
  cases hreason : o.reason with
  | breakpoint pc => exact absurd ⟨pc, hreason⟩ hend
  | halted => rfl
  | stepLimit => rfl
  | fault pc f => rfl

/-- The answer of a session is settled by its runs, and ends as the last of them says, if there
is a stack to show at every pause. It does not depend on how many turns and pauses are allowed,
as long as they are enough. -/
theorem exists_answer {os : List (Outcome Empty)} {last : Outcome Empty}
    (h : Runner.Consecutive r m (os ++ [last])) (hpauses : ∀ o ∈ os, o.IsPause)
    (hstacks : ∀ o ∈ os, ∃ stack, o.machine.stack? = some stack) (hlast : ¬ last.IsPause) :
    ∃ shown ending code, ending? last = some (ending, code) ∧
      ∀ turns pauses, (∀ o ∈ os ++ [last], o.steps < turns) → os.length < pauses →
        drive turns pauses r m = some (shown ++ ending, code) := by
  induction os generalizing r m with
  | nil =>
      obtain ⟨⟨_, hrun⟩, _⟩ := h.uncons
      obtain ⟨⟨ending, code⟩, hending⟩ := exists_ending hlast
      refine ⟨shownOf r m last, ending, code, hending, ?_⟩
      intro turns pauses hturns hcount
      obtain ⟨more, rfl⟩ := Nat.exists_eq_add_one.mpr hcount
      rw [drive_of_end (Runner.run_of_steps_lt hrun (hturns last (by simp))) hlast, hending]
      rfl
  | cons o rest ih =>
      obtain ⟨⟨_, hrun⟩, hrest⟩ := h.uncons
      obtain ⟨⟨pc, hreason⟩, hpauses⟩ := List.forall_mem_cons.mp hpauses
      obtain ⟨⟨stack, hstack⟩, hstacks⟩ := List.forall_mem_cons.mp hstacks
      obtain ⟨shown, ending, code, hending, hanswer⟩ := ih hrest hpauses hstacks
      refine ⟨shownOf r m o ++ .event (reportOf pc o stack) :: shown, ending, code, hending, ?_⟩
      intro turns pauses hturns hcount
      rw [List.length_cons] at hcount
      obtain ⟨more, rfl⟩ := Nat.exists_eq_add_one.mpr (Nat.zero_lt_of_lt hcount)
      rw [drive_of_pause (Runner.run_of_steps_lt hrun (hturns o (by simp))) hreason hstack,
        hanswer turns more (fun next member => hturns next (by simp [member])) (by omega)]
      simp

/-! ### The machine of a session -/

theorem laidOut_of_markAll {c : Config} {slots : List Nat} {loaded : Machine Empty}
    (h : loaded.LaidOut c) (hmark : markAll slots loaded = .ok m) : m.LaidOut c := by
  induction slots generalizing loaded with
  | nil =>
      cases hmark
      exact h
  | cons slot rest ih =>
      rw [markAll_cons] at hmark
      cases htoggle : loaded.toggleBreakpoint slot with
      | error e =>
          rw [htoggle] at hmark
          cases hmark
      | ok answer =>
          rw [htoggle] at hmark
          exact ih (h.toggleBreakpoint htoggle) hmark

theorem laidOut_of_setup {o : Options} {events : List Event}
    (hsetup : setup o = (events, .ok m)) : o.config.flaw? = none ∧ m.LaidOut o.config := by
  have hmade : (setup o).2 = .ok m := by rw [hsetup]
  unfold setup at hmade
  cases hcreate : Machine.create (ι := Empty) o.config with
  | error e =>
      rw [hcreate] at hmade
      cases hmade
  | ok fresh =>
      have hc : o.config.flaw? = none := (Machine.create_ok_iff.mp hcreate).1
      obtain ⟨start, hstart, _, hlaid, _⟩ := Machine.create_laidOut (ι := Empty) hc
      cases hcreate.symm.trans hstart
      rw [hcreate] at hmade
      dsimp only at hmade
      cases hload : fresh.load o.demo.program with
      | error e =>
          rw [hload] at hmade
          cases hmade
      | ok loaded =>
          rw [hload] at hmade
          exact ⟨hc, laidOut_of_markAll (hlaid.load hc hload) hmade⟩

/-- Runs keep the division of memory, so wherever they stop there is a stack to show. -/
theorem exists_stack_of_consecutive {c : Config} (hc : c.flaw? = none) (hm : m.LaidOut c)
    {os : List (Outcome Empty)} (h : r.Consecutive m os) :
    ∀ o ∈ os, ∃ stack, o.machine.stack? = some stack := by
  have hlaid : ∀ o ∈ os, o.machine.LaidOut c := by
    refine h.holds ?_ ?_ hm
    · intro k hk
      exact (Machine.laidOut_enduring hc).step k.isStandard_empty hk
    · intro k hk
      exact ⟨hk.config, hk.registers, hk.memory_size, hk.store_size⟩
  intro o member
  obtain ⟨stack, hstack, _⟩ := (hlaid o member).exists_stack hc
  exact ⟨stack, hstack⟩

/-- The runner of a session. -/
def Options.runner (o : Options) : Runner where
  limits := { maxSteps := some o.maxSteps, stopAtBreakpoints := !o.ignoreBreakpoints }

/-- Under the limit of a session, turns and pauses are enough if they outnumber its steps. -/
theorem drive_of_consecutive {o : Options} {events : List Event}
    (hsetup : setup o = (events, .ok m)) {os : List (Outcome Empty)} {last : Outcome Empty}
    (h : o.runner.Consecutive m (os ++ [last])) (hpauses : ∀ next ∈ os, next.IsPause)
    (hlast : ¬ last.IsPause) :
    ∃ shown ending code, ending? last = some (ending, code) ∧
      ∀ turns pauses, o.maxSteps < turns → o.maxSteps < pauses →
        drive turns pauses o.runner m = some (shown ++ ending, code) := by
  have hlimit : o.runner.limits.maxSteps = some o.maxSteps := rfl
  obtain ⟨hc, hm⟩ := laidOut_of_setup hsetup
  obtain ⟨shown, ending, code, hending, hanswer⟩ :=
    exists_answer h hpauses (exists_stack_of_consecutive hc hm h.of_append) hlast
  refine ⟨shown, ending, code, hending, ?_⟩
  intro turns pauses hturns hcount
  apply hanswer
  · intro next member
    exact Nat.lt_of_le_of_lt (h.steps_le hlimit next member) hturns
  · have hfew := h.of_append.length_le hpauses hlimit
    omega

theorem session?_of_error {o : Options} {events : List Event} {e : LoadError}
    (hsetup : setup o = (events, .error e)) :
    o.session? = some (events.map .event ++ [.event (.setupFailed e)], 1) := by
  unfold Options.session?
  rw [hsetup]

theorem session?_of_drive {o : Options} {events : List Event}
    (hsetup : setup o = (events, .ok m)) {shown : List Piece} {code : Nat}
    (hdrive : drive (o.maxSteps + 1) (o.maxSteps + 2) o.runner m = some (shown, code)) :
    o.session? =
      some (events.map .event ++ .event (.running o.demo) :: shown, code) := by
  unfold Options.session?
  rw [hsetup]
  dsimp only
  change (drive (o.maxSteps + 1) (o.maxSteps + 2) o.runner m >>= _) = _
  rw [hdrive]
  rfl

/-- A session has turns and pauses enough, and with more of them it would show the same. -/
theorem session_ends {o : Options} {events : List Event}
    (hsetup : setup o = (events, .ok m)) :
    ∃ shown code,
      (∀ turns pauses, o.maxSteps < turns → o.maxSteps < pauses →
        drive turns pauses o.runner m = some (shown, code)) ∧
      o.session? =
        some (events.map .event ++ .event (.running o.demo) :: shown, code) := by
  have hlimit : o.runner.limits.maxSteps = some o.maxSteps := rfl
  obtain ⟨os, last, hos, hpauses, hlast⟩ := Runner.exists_end hlimit m
  obtain ⟨shown, ending, code, _, hdrive⟩ := drive_of_consecutive hsetup hos hpauses hlast
  exact ⟨shown ++ ending, code, hdrive,
    session?_of_drive hsetup (hdrive _ _ (by omega) (by omega))⟩

theorem exists_session (o : Options) : ∃ answer, o.session? = some answer := by
  cases hsetup : setup o with
  | mk events made =>
      cases made with
      | error e => exact ⟨_, session?_of_error hsetup⟩
      | ok m =>
          obtain ⟨_, _, _, hends⟩ := session_ends hsetup
          exact ⟨_, hends⟩

theorem exists_response (read : List String → Except Response Options) (args : List String) :
    ∃ response, answer? read args = some response := by
  unfold answer?
  cases read args with
  | error response => exact ⟨response, rfl⟩
  | ok o =>
      obtain ⟨answer, hanswer⟩ := exists_session o
      dsimp only
      rw [hanswer]
      exact ⟨_, rfl⟩

/-- The loop around a runner comes to an end. Under a limit, every run stops, and begins no
more instructions than the limit has steps left. Of consecutive runs of a fresh runner no
more end at a breakpoint than the limit has steps, for every machine, every host and all
breakpoints, so that one of the first runs ends for another reason. Hence the session of the
command line ends whenever the machine could be set up, with an answer that does not depend
on the turns and pauses allowed. It has a stack to show wherever it pauses. So every list of
arguments is answered, in whatever way arguments are read. -/
theorem host_loop_ends [Host ι] (limit : Nat) (stop : Bool) (m : Machine ι) :
    let fresh : Runner := { limits := { maxSteps := some limit, stopAtBreakpoints := stop } }
    (∀ (r : Runner) (k : Machine ι), r.limits.maxSteps = some limit →
      ∃ o, o.attempts ≤ limit - r.totalSteps ∧
        ∀ fuel, o.steps < fuel → r.run fuel k = some o) ∧
      (∀ os, fresh.Consecutive m os → (∀ o ∈ os, o.IsPause) → os.length ≤ limit) ∧
      (∃ os last, fresh.Consecutive m (os ++ [last]) ∧ (∀ o ∈ os, o.IsPause) ∧
        ¬ last.IsPause ∧ os.length ≤ limit) ∧
      (∀ (o : Options) (events : List Event) (made : Machine Empty),
        setup o = (events, .ok made) →
          (∀ os, o.runner.Consecutive made os →
            ∀ next ∈ os, ∃ stack, next.machine.stack? = some stack) ∧
          ∃ shown code,
            (∀ turns pauses, o.maxSteps < turns → o.maxSteps < pauses →
              drive turns pauses o.runner made = some (shown, code)) ∧
            o.session? =
              some (events.map .event ++ .event (.running o.demo) :: shown, code)) ∧
      ∀ read args, ∃ response, answer? read args = some response := by
  intro fresh
  have hlimit : fresh.limits.maxSteps = some limit := rfl
  refine ⟨fun r k hr => Runner.run_ends hr k, ?_, ?_, ?_, exists_response⟩
  · intro os hos hpauses
    exact hos.length_le hpauses hlimit
  · obtain ⟨os, last, hos, hpauses, hlast⟩ := Runner.exists_end hlimit m
    exact ⟨os, last, hos, hpauses, hlast, hos.of_append.length_le hpauses hlimit⟩
  · intro o events made hsetup
    obtain ⟨hc, hmade⟩ := laidOut_of_setup hsetup
    exact ⟨fun os hos => exists_stack_of_consecutive hc hmade hos, session_ends hsetup⟩

/-- An instruction with a breakpoint that jumps to itself. -/
def selfJump : Machine Empty where
  config := ⟨1, 1, 1⟩
  registers := .initial ⟨1, 1, 1⟩
  memory := .zeros 1
  store := #[{ Standard.instruction .ujp (some (.int 0)) with breakpoint := true }]
  labels := ∅
  overlay := []
  output := .empty
  running := true

/-- The demo that never halts, with a breakpoint where it prints and few steps. -/
def briefSpin : Options := { demo := .spin, config := ⟨3, 1, 1⟩, maxSteps := 3, breakAt := [1] }

/-- What that session shows. -/
def spinReport : String :=
  " INFO running demo=Spin\n" ++
    " INFO breakpoint, continuing pc=1 sp=0 ep=1 hp=1 stack=[Int(7)]\n7\n" ++
    " INFO step limit reached steps=3\n"

/-- The bound on the pauses is sharp: with three steps there are three pauses. A session of the
demo that never halts pauses once and then ends at its limit. -/
theorem three_steps_allow_three_pauses :
    (∃ os last, Runner.Consecutive { limits := { maxSteps := some 3 } } selfJump (os ++ [last]) ∧
      (∀ o ∈ os, o.IsPause) ∧ ¬ last.IsPause ∧ os.length = 3) ∧
      ∃ events made pieces, setup briefSpin = (events, .ok made) ∧
        briefSpin.session? = some (pieces, 0) ∧
        render .info pieces = spinReport := by
  obtain ⟨_, _, ⟨os, last, hos, hpauses, hlast, hle⟩, hsessions, _⟩ :=
    host_loop_ends 3 true selfJump
  constructor
  · have hlaid : selfJump.LaidOut ⟨1, 1, 1⟩ :=
      ⟨rfl, Registers.initial_divide (by decide), rfl, rfl⟩
    have hstacks := exists_stack_of_consecutive (by decide) hlaid hos.of_append
    obtain ⟨_, _, _, _, hanswer⟩ := exists_answer hos hpauses hstacks hlast
    -- With fewer pauses three runs would be enough, and they are not.
    have hmany : ¬ os.length < 3 := by
      intro hfew
      have hthree := hanswer 4 3
        (fun o member => Nat.lt_succ_of_le (hos.steps_le rfl o member)) hfew
      have hnone : (drive 4 3 { limits := { maxSteps := some 3 } } selfJump).isNone = true := by
        decide +kernel
      rw [hthree] at hnone
      cases hnone
    exact ⟨os, last, hos, hpauses, hlast, by omega⟩
  · obtain ⟨made, hmade⟩ : ∃ made, (setup briefSpin).2 = .ok made := ⟨_, rfl⟩
    have hsetup : setup briefSpin = ((setup briefSpin).1, .ok made) := by rw [← hmade]
    obtain ⟨_, shown, code, _, hsession⟩ := hsessions briefSpin _ made hsetup
    have hshows : briefSpin.session?.map (fun answer => (render .info answer.1, answer.2)) =
        some (spinReport, 0) := by decide +kernel
    rw [hsession, Option.map_some, Option.some.injEq, Prod.mk.injEq] at hshows
    obtain ⟨htext, rfl⟩ := hshows
    exact ⟨_, made, _, hsetup, hsession, htext⟩

end CommandLine

end CellMachine
