import ConsensusCore.Concurrency.Barrier
import ConsensusCore.Proofs.Concurrency.Simulation
import Mathlib.Algebra.Ring.Nat

/-!
# Runs of a barrier

A caller who comes to a barrier looks at it, and has to wait if the count is not zero. Such a
caller enrols for the next announcement, looks once more, and only then falls asleep, until
something is announced; then all this is done again. Whoever brings the count to zero announces it,
but after the barrier has been left. So other callers can do anything between two of these deeds,
and all that is done comes in any order (`Crowd.Step`).

What is done is kept in a history, the latest first. A caller is due if the count was zero when the
caller came, or has been brought to zero since (`Crowd.Due`). As openings are counted, every look
tells who is due, however often the count has been raised in the meantime (`Tracks`). And whoever is
due does not sleep, or something is to be announced (`Crowd.Kept`).

* `Crowd.Run.letsThrough`: in every run, the count is what was raised and not lowered, and those are
  let through who are due, and no others.
-/

namespace ConsensusCore

namespace Barrier

variable {b : Barrier} {a : Action} {w : Wait}

/-! ## Openings -/

/-- An action brings the count to zero, from above. -/
def Opens (b : Barrier) (a : Action) : Prop :=
  ∃ n, a = .decrease n ∧ 0 < n ∧ (b.act a).1 = .ok () ∧ (b.act a).2.count = 0

/-- An action would raise the count by more than the count can hold. -/
def Saturates (b : Barrier) (a : Action) : Prop :=
  ∃ n, a = .increase n ∧ Saturating.ceiling < b.count + n

/-- What lowering the count does. -/
theorem act_decrease (b : Barrier) (n : Nat) :
    b.count < n ∧ b.act (.decrease n) = (.error (.invalidDecrease b.count n), b) ∨
    n ≤ b.count ∧ b.act (.decrease n) =
      (.ok (), ⟨b.count - n, if b.count = n ∧ 0 < n then b.openings + 1 else b.openings⟩) := by
  by_cases hlt : b.count < n
  · exact .inl ⟨hlt, by simp only [act, decrease, if_pos hlt]⟩
  · exact .inr ⟨Nat.le_of_not_lt hlt, by simp only [act, decrease, if_neg hlt]⟩

theorem opens_decrease {n : Nat} : b.Opens (.decrease n) ↔ b.count = n ∧ 0 < n := by
  constructor
  · rintro ⟨m, heq, hpos, hok, hzero⟩
    cases heq
    rcases b.act_decrease n with ⟨-, hact⟩ | ⟨hle, hact⟩ <;> rw [hact] at hok hzero
    · cases hok
    · exact ⟨Nat.le_antisymm (Nat.le_of_sub_eq_zero hzero) hle, hpos⟩
  · rintro ⟨rfl, hpos⟩
    rcases b.act_decrease b.count with ⟨hlt, -⟩ | ⟨-, hact⟩
    · exact absurd hlt (Nat.lt_irrefl _)
    · exact ⟨b.count, rfl, hpos, by rw [hact], by rw [hact, Nat.sub_self]⟩

theorem not_opens_increase {n : Nat} : ¬b.Opens (.increase n) := by
  rintro ⟨m, heq, -⟩
  cases heq

/-- Openings are counted. -/
theorem openings_act (b : Barrier) (a : Action) :
    b.Opens a ∧ (b.act a).2.openings = b.openings + 1 ∨
    ¬b.Opens a ∧ (b.act a).2.openings = b.openings := by
  cases a with
  | increase n => exact .inr ⟨not_opens_increase, rfl⟩
  | decrease n =>
    rw [opens_decrease]
    rcases b.act_decrease n with ⟨hlt, hact⟩ | ⟨-, hact⟩ <;> rw [hact]
    · exact .inr ⟨fun h => absurd h.1 (Nat.ne_of_lt hlt), rfl⟩
    · by_cases hopen : b.count = n ∧ 0 < n
      · exact .inl ⟨hopen, if_pos hopen⟩
      · exact .inr ⟨hopen, if_neg hopen⟩

/-- The count is zero if it was before, or has been brought to zero. -/
theorem count_act (hzero : (b.act a).2.count = 0) : b.count = 0 ∨ b.Opens a := by
  cases a with
  | increase n =>
    refine .inl ?_
    have hadd : Saturating.add b.count n = 0 := hzero
    rw [Saturating.add, Saturating.ceiling] at hadd
    have := (by decide : 0 < UInt64.size - 1)
    omega
  | decrease n =>
    rw [opens_decrease]
    rcases b.act_decrease n with ⟨-, hact⟩ | ⟨hle, hact⟩ <;> rw [hact] at hzero
    · exact .inl hzero
    · have : b.count - n = 0 := hzero
      omega

/-! ## Looks -/

/-- A wait has been going on since some opening, from which on the count has been above zero. The
    caller is due once there has been another. -/
def Tracks (b : Barrier) (due : Prop) (w : Wait) : Prop :=
  ∃ n, w = .since n ∧ n ≤ b.openings ∧ (due ↔ n < b.openings) ∧ (b.count = 0 → n < b.openings)

/-- Those who find the count at zero do not have to wait. -/
theorem poll_fresh (b : Barrier) :
    b.count = 0 ∧ Wait.fresh.poll b = none ∨
    b.count ≠ 0 ∧ Wait.fresh.poll b = some (.since b.openings) ∧
      b.Tracks False (.since b.openings) := by
  by_cases hzero : b.count = 0
  · exact .inl ⟨hzero, if_pos hzero⟩
  · refine .inr ⟨hzero, if_neg hzero, _, rfl, Nat.le_refl _, ?_, fun h => absurd h hzero⟩
    exact iff_of_false not_false (Nat.lt_irrefl _)

variable {due : Prop}

/-- Those are let through who are due; for all others nothing changes. -/
theorem Tracks.poll (h : b.Tracks due w) :
    due ∧ w.poll b = none ∨ ¬due ∧ w.poll b = some w := by
  obtain ⟨n, rfl, hle, hdue, hzero⟩ := h
  rw [hdue]
  by_cases hlt : n < b.openings
  · exact .inl ⟨hlt, if_pos (.inr (Nat.ne_of_gt hlt))⟩
  · refine .inr ⟨hlt, if_neg ?_⟩
    rintro (h | h)
    · exact hlt (hzero h)
    · exact h (Nat.le_antisymm (Nat.le_of_not_lt hlt) hle)

theorem Tracks.act (h : b.Tracks due w) (a : Action) :
    (b.act a).2.Tracks (due ∨ b.Opens a) w := by
  obtain ⟨n, rfl, hle, hdue, hzero⟩ := h
  refine ⟨n, rfl, ?_⟩
  have hcount : (b.act a).2.count = 0 → b.count = 0 ∨ b.Opens a := count_act
  rcases b.openings_act a with ⟨hopens, heq⟩ | ⟨hnot, heq⟩ <;> rw [heq]
  · exact ⟨Nat.le_succ_of_le hle, iff_of_true (.inr hopens) (Nat.lt_succ_of_le hle),
      fun _ => Nat.lt_succ_of_le hle⟩
  · exact ⟨hle, by rw [or_iff_left hnot, hdue], fun h => hzero ((hcount h).resolve_right hnot)⟩

theorem Tracks.congr {due' : Prop} (h : b.Tracks due w) (hiff : due' ↔ due) : b.Tracks due' w := by
  obtain ⟨n, hw, hle, hdue, hzero⟩ := h
  exact ⟨n, hw, hle, hiff.trans hdue, hzero⟩

end Barrier

/-! ## Those who wait -/

/-- What a caller who waits at a barrier does next. -/
inductive Stage where
  /-- The caller enrols for the next announcement. -/
  | returning
  /-- The caller looks at the barrier again; something may have been announced. -/
  | enrolled (told : Bool)
  /-- The caller sleeps until something is announced. -/
  | asleep (told : Bool)

/-- All who have enrolled are told of an announcement. -/
def Stage.tell : Stage → Stage
  | .returning => .returning
  | .enrolled _ => .enrolled true
  | .asleep _ => .asleep true

/-- How much a caller who waits has to do until the caller sleeps, if nothing is announced. -/
def Stage.effort : Stage → Nat
  | .asleep false => 0
  | .enrolled false => 1
  | .returning => 2
  | .asleep true => 3
  | .enrolled true => 4

theorem Stage.effort_tell (stage : Stage) : stage.tell.effort ≤ stage.effort + 3 := by
  cases stage with
  | returning => decide
  | enrolled told | asleep told => cases told <;> decide

/-- A caller who waits at a barrier. -/
structure Waiter where
  caller : Caller
  wait : Barrier.Wait
  stage : Stage

/-- A barrier and those who wait at it. -/
structure Crowd where
  barrier : Barrier
  /-- How many openings are still to be announced. -/
  bells : Nat
  waiters : List Waiter
  /-- The number of the next caller. -/
  next : Nat

namespace Crowd

open Barrier

/-- The start, with the count zero. -/
def start : Crowd := ⟨.new, 0, [], 0⟩

/-- What is done at a barrier. -/
inductive Deed where
  /-- An action is carried out, on the barrier as it is then. -/
  | act (b : Barrier) (a : Action)
  /-- An opening is announced. -/
  | announce
  /-- A caller comes and finds a count. -/
  | come (caller : Caller) (count : Nat) (passes : Bool)
  | enrol (caller : Caller)
  | look (caller : Caller) (passes : Bool)
  | wake (caller : Caller)
  /-- A caller no longer waits. -/
  | leave (caller : Caller)

/-- What can be done next. -/
inductive Step (c : Crowd) : Deed → Crowd → Prop
  | act (a : Action) : Step c (.act c.barrier a) { c with
      barrier := (c.barrier.act a).2
      bells := c.bells + ((c.barrier.act a).2.openings - c.barrier.openings) }
  | announce {n : Nat} : c.bells = n + 1 → Step c .announce { c with
      bells := n
      waiters := c.waiters.map fun w => { w with stage := w.stage.tell } }
  | come {caller : Caller} : caller.number = c.next →
    Step c (.come caller c.barrier.count (Wait.fresh.poll c.barrier).isNone) { c with
      waiters := c.waiters ++
        ((Wait.fresh.poll c.barrier).map fun wait => ⟨caller, wait, .returning⟩).toList
      next := c.next + 1 }
  | enrol {before after : List Waiter} {caller : Caller} {wait : Wait} :
    c.waiters = before ++ ⟨caller, wait, .returning⟩ :: after →
    Step c (.enrol caller) { c with
      waiters := before ++ ⟨caller, wait, .enrolled false⟩ :: after }
  | look {before after : List Waiter} {caller : Caller} {wait : Wait} {told : Bool} :
    c.waiters = before ++ ⟨caller, wait, .enrolled told⟩ :: after →
    Step c (.look caller (wait.poll c.barrier).isNone) { c with
      waiters := before ++
        (((wait.poll c.barrier).map fun wait => ⟨caller, wait, .asleep told⟩).toList ++ after) }
  | wake {before after : List Waiter} {caller : Caller} {wait : Wait} :
    c.waiters = before ++ ⟨caller, wait, .asleep true⟩ :: after →
    Step c (.wake caller) { c with waiters := before ++ ⟨caller, wait, .returning⟩ :: after }
  | leave {before after : List Waiter} {w : Waiter} : c.waiters = before ++ w :: after →
    Step c (.leave w.caller) { c with waiters := before ++ after }

/-- What has been done, the latest first. -/
abbrev History := List Deed

/-- A barrier with its history. -/
inductive Run : History → Crowd → Prop
  | start : Run [] start
  | step {h : History} {c c' : Crowd} {d : Deed} : Run h c → Step c d c' → Run (d :: h) c'

/-- By how much the count was raised. -/
def raised : History → Nat
  | [] => 0
  | .act _ (.increase n) :: h => raised h + n
  | _ :: h => raised h

/-- By how much the count was lowered. -/
def lowered : History → Nat
  | [] => 0
  | .act b (.decrease n) :: h => lowered h + if (b.act (.decrease n)).1 = .ok () then n else 0
  | _ :: h => lowered h

/-- Those who were let through, the latest first. -/
def through : History → List Caller
  | [] => []
  | .come caller _ true :: h => caller :: through h
  | .look caller true :: h => caller :: through h
  | _ :: h => through h

/-- Those who left, the latest first. -/
def gone : History → List Caller
  | [] => []
  | .leave caller :: h => caller :: gone h
  | _ :: h => gone h

/-- The count is brought to zero, from above. -/
def Deed.Opens : Deed → Prop
  | .act b a => b.Opens a
  | _ => False

/-- The count would be raised by more than it can hold. -/
def Deed.Saturates : Deed → Prop
  | .act b a => b.Saturates a
  | _ => False

/-- What those do of themselves who wait, and those who have to announce an opening. -/
def Deed.Inner : Deed → Prop
  | .announce | .enrol _ | .look _ _ | .wake _ => True
  | .act _ _ | .come _ _ _ | .leave _ => False

def Came (h : History) (caller : Caller) : Prop := ∃ count passes, .come caller count passes ∈ h

/-- The count was zero when the caller came, or has been brought to zero since. -/
def Due (h : History) (caller : Caller) : Prop :=
  ∃ later count passes earlier, h = later ++ .come caller count passes :: earlier ∧
    (count = 0 ∨ ∃ d ∈ later, d.Opens)

/-- How much all have to do until all sleep, if nobody comes and nothing is done to the barrier. -/
def effort (c : Crowd) : Nat :=
  (c.waiters.map (·.stage.effort)).sum + c.bells * (3 * c.waiters.length + 1)

/-- What a run of a barrier is to be like. -/
structure LetsThrough (h : History) (c : Crowd) : Prop where
  /-- The count cannot be lowered below zero, and an attempt changes nothing. -/
  refuses : ∀ n, ((c.barrier.act (.decrease n)).1 ≠ .ok () ↔ c.barrier.count < n) ∧
    (c.barrier.count < n → (c.barrier.act (.decrease n)).2 = c.barrier)
  /-- The count is what was raised and not lowered, unless it was raised too much. -/
  count : (∀ d ∈ h, ¬d.Saturates) → c.barrier.count + lowered h = raised h
  /-- Those who find the count at zero are let through at once, and they only. -/
  at_once : ∀ caller count passes, .come caller count passes ∈ h → (passes = true ↔ count = 0)
  /-- All others are let through when they look and are due. -/
  look_iff : ∀ caller passes c', Step c (.look caller passes) c' → (passes = true ↔ Due h caller)
  /-- Only those are let through who are due. -/
  due : ∀ caller ∈ through h, Due h caller
  /-- Nobody is let through as long as the count has not been zero since the caller came. -/
  closed : ∀ later caller count passes earlier, h = later ++ .come caller count passes :: earlier →
    count ≠ 0 → (∀ b a, .act b a ∈ later → (b.act a).2.count ≠ 0) → caller ∉ through h
  /-- Whoever is due does not sleep, or will be told. -/
  awake : ∀ w ∈ c.waiters, Due h w.caller → w.stage = .asleep false → 0 < c.bells
  /-- Those who wait and those who announce openings have not much to do. -/
  settles : ∀ d c', d.Inner → Step c d c' → c'.effort < c.effort
  /-- When they have done it, all have been let through who are due and have not left. -/
  rest : (∀ d c', d.Inner → ¬Step c d c') → ∀ caller, Came h caller → caller ∉ gone h →
    (caller ∈ through h ↔ Due h caller)

/-! ## What each deed keeps -/

variable {h : History} {c c' : Crowd} {d : Deed} {caller : Caller} {passes : Bool}
  {before after : List Waiter} {w w' : Waiter}

theorem came_cons : Came (d :: h) caller ↔
    (∃ count passes, d = .come caller count passes) ∨ Came h caller := by
  simp only [Came, List.mem_cons, exists_or, eq_comm]

theorem due_cons : Due (d :: h) caller ↔
    (∃ passes, d = .come caller 0 passes) ∨ Due h caller ∨ Came h caller ∧ d.Opens := by
  constructor
  · rintro ⟨_ | ⟨e, later⟩, count, passes, earlier, heq, hor⟩
    · obtain ⟨rfl, rfl⟩ := List.cons.inj heq
      rcases hor with rfl | ⟨_, hd, _⟩
      · exact .inl ⟨passes, rfl⟩
      · cases hd
    · obtain ⟨rfl, rfl⟩ := List.cons.inj heq
      right
      rcases hor with hzero | ⟨e, he, hopens⟩
      · exact .inl ⟨later, count, passes, earlier, rfl, .inl hzero⟩
      · rcases List.mem_cons.1 he with rfl | he
        · exact .inr ⟨⟨count, passes, List.mem_append_right _ List.mem_cons_self⟩, hopens⟩
        · exact .inl ⟨later, count, passes, earlier, rfl, .inr ⟨e, he, hopens⟩⟩
  · rintro (⟨passes, rfl⟩ | ⟨later, count, passes, earlier, rfl, hor⟩ |
      ⟨⟨count, passes, hmem⟩, hopens⟩)
    · exact ⟨[], 0, passes, h, rfl, .inl rfl⟩
    · exact ⟨d :: later, count, passes, earlier, rfl,
        hor.imp_right fun ⟨e, he, hopens⟩ => ⟨e, List.mem_cons_of_mem _ he, hopens⟩⟩
    · obtain ⟨later, earlier, rfl⟩ := List.append_of_mem hmem
      exact ⟨d :: later, count, passes, earlier, rfl, .inr ⟨d, List.mem_cons_self, hopens⟩⟩

theorem Due.came (hdue : Due h caller) : Came h caller := by
  obtain ⟨later, count, passes, earlier, rfl, -⟩ := hdue
  exact ⟨count, passes, List.mem_append_right _ List.mem_cons_self⟩

theorem through_cons (d : Deed) (h : History) : through h <:+ through (d :: h) := by
  cases d with
  | come caller count passes | look caller passes =>
    cases passes with
    | true => exact List.suffix_cons caller (through h)
    | false => exact List.suffix_rfl
  | act | announce | enrol | wake | leave => exact List.suffix_rfl

theorem gone_cons (d : Deed) (h : History) : gone h <:+ gone (d :: h) := by
  cases d with
  | leave caller => exact List.suffix_cons caller (gone h)
  | act | announce | come | enrol | look | wake => exact List.suffix_rfl

/-- What links one who waits to the barrier, the openings to be announced, and the history. -/
structure Fits (h : History) (b : Barrier) (bells : Nat) (w : Waiter) : Prop where
  came : Came h w.caller
  tracks : b.Tracks (Due h w.caller) w.wait
  told : w.stage = .asleep false → Due h w.caller → 0 < bells

/-- What links a barrier, those who wait, and the history. -/
structure Kept (h : History) (c : Crowd) : Prop where
  lt : ∀ caller, Came h caller → caller.number < c.next
  fits : ∀ w ∈ c.waiters, Fits h c.barrier c.bells w
  place : ∀ caller, Came h caller →
    caller ∈ through h ∨ caller ∈ gone h ∨ ∃ w ∈ c.waiters, w.caller = caller
  due : ∀ caller ∈ through h, Due h caller

theorem kept_start : Kept [] start where
  lt := fun _ ⟨_, _, hmem⟩ => absurd hmem List.not_mem_nil
  fits _ hw := absurd hw List.not_mem_nil
  place := fun _ ⟨_, _, hmem⟩ => absurd hmem List.not_mem_nil
  due _ hcaller := absurd hcaller List.not_mem_nil

/-- Whoever waits can go on to what else is to be done, but not fall asleep when due. -/
theorem Fits.restage {b : Barrier} {bells bells' : Nat} {stage : Stage} (hw : Fits h b bells w)
    (hstage : stage = .asleep false → ¬Due h w.caller) :
    Fits h b bells' { w with stage } :=
  ⟨hw.came, hw.tracks, fun heq hdue => absurd hdue (hstage heq)⟩

theorem Kept.act (hk : Kept h c) (a : Action) : Kept (.act c.barrier a :: h) { c with
    barrier := (c.barrier.act a).2
    bells := c.bells + ((c.barrier.act a).2.openings - c.barrier.openings) } := by
  have hcame : ∀ caller, Came (.act c.barrier a :: h) caller ↔ Came h caller := by
    simp [came_cons]
  refine
    { lt := fun caller hcaller => hk.lt caller ((hcame caller).1 hcaller)
      fits := fun w hw => ?_
      place := fun caller hcaller => hk.place caller ((hcame caller).1 hcaller)
      due := fun caller hcaller => due_cons.2 (.inr (.inl (hk.due caller hcaller))) }
  obtain ⟨hcaller, htracks, htold⟩ := hk.fits w hw
  have hdue : Due (.act c.barrier a :: h) w.caller ↔ Due h w.caller ∨ c.barrier.Opens a := by
    simp [due_cons, hcaller, Deed.Opens]
  refine ⟨(hcame w.caller).2 hcaller, (htracks.act a).congr hdue, fun hstage hnow => ?_⟩
  rcases hdue.1 hnow with hbefore | hopens
  · exact Nat.lt_of_lt_of_le (htold hstage hbefore) (Nat.le_add_right _ _)
  · rcases c.barrier.openings_act a with ⟨-, heq⟩ | ⟨hnot, -⟩
    · -- the opening is still to be announced
      rw [heq, Nat.add_sub_cancel_left]
      exact Nat.succ_pos _
    · exact absurd hopens hnot

/-- A caller comes, and is let through or has to wait. -/
theorem Kept.come (hk : Kept h c) {guests : List Waiter} (hnumber : caller.number = c.next)
    (hpasses : passes = true → c.barrier.count = 0)
    (hguests : ∀ w ∈ guests, w.caller = caller ∧ w.stage = .returning ∧ c.barrier.count ≠ 0 ∧
      c.barrier.Tracks False w.wait)
    (hplace : passes = true ∨ ∃ w ∈ guests, w.caller = caller) :
    Kept (.come caller c.barrier.count passes :: h)
      { c with waiters := c.waiters ++ guests, next := c.next + 1 } := by
  have hnew : ¬Came h caller := fun hcaller => absurd (hk.lt caller hcaller) (by omega)
  have hcame : ∀ other, Came (.come caller c.barrier.count passes :: h) other ↔
      caller = other ∨ Came h other := by simp [came_cons]
  have hdue : ∀ other, Due (.come caller c.barrier.count passes :: h) other ↔
      (caller = other ∧ c.barrier.count = 0) ∨ Due h other := by simp [due_cons, Deed.Opens]
  refine
    { lt := fun other hother => ?_
      fits := List.forall_mem_append.2 ⟨fun w hw => ?_, fun w hw => ?_⟩
      place := fun other hother => ?_
      due := fun other hother => ?_ }
  · rcases (hcame other).1 hother with rfl | hother
    · exact hnumber ▸ Nat.lt_succ_self _
    · exact Nat.lt_succ_of_lt (hk.lt other hother)
  · obtain ⟨hold, htracks, htold⟩ := hk.fits w hw
    have hsame := (hdue w.caller).trans (or_iff_right fun heq => hnew (heq.1 ▸ hold))
    exact ⟨(hcame w.caller).2 (.inr hold), htracks.congr hsame,
      fun hstage hnow => htold hstage (hsame.1 hnow)⟩
  · obtain ⟨rfl, hstage, hpos, htracks⟩ := hguests w hw
    refine ⟨(hcame w.caller).2 (.inl rfl), htracks.congr (iff_false_intro fun hnow => ?_), ?_⟩
    · rcases (hdue w.caller).1 hnow with ⟨-, hzero⟩ | hbefore
      · exact hpos hzero
      · exact hnew hbefore.came
    · intro hasleep
      cases hstage.symm.trans hasleep
  · rcases (hcame other).1 hother with rfl | hold
    · rcases hplace with rfl | ⟨w, hw, heq⟩
      · exact .inl List.mem_cons_self
      · exact .inr (.inr ⟨w, List.mem_append_right _ hw, heq⟩)
    · rcases hk.place other hold with hthrough | hgone | ⟨w, hw, heq⟩
      · exact .inl ((through_cons _ h).subset hthrough)
      · exact .inr (.inl hgone)
      · exact .inr (.inr ⟨w, List.mem_append_left _ hw, heq⟩)
  · rw [hdue]
    cases passes with
    | true =>
      rcases List.mem_cons.1 hother with rfl | hother
      · exact .inl ⟨rfl, hpasses rfl⟩
      · exact .inr (hk.due other hother)
    | false => exact .inr (hk.due other hother)

/-- Nobody comes, and the count is not brought to zero. -/
theorem Kept.quiet (hk : Kept h c) {waiters : List Waiter} {bells : Nat} (hopens : ¬d.Opens)
    (hcome : ∀ caller count passes, d ≠ .come caller count passes)
    (hfits : ∀ w ∈ waiters, Fits h c.barrier bells w)
    (hthrough : ∀ caller ∈ through (d :: h), caller ∈ through h ∨ Due h caller)
    (hplace : ∀ w ∈ c.waiters, w.caller ∈ through (d :: h) ∨ w.caller ∈ gone (d :: h) ∨
      ∃ w' ∈ waiters, w'.caller = w.caller) :
    Kept (d :: h) { c with waiters, bells } := by
  have hcame : ∀ caller, Came (d :: h) caller ↔ Came h caller := by simp [came_cons, hcome]
  have hdue : ∀ caller, Due (d :: h) caller ↔ Due h caller := by simp [due_cons, hcome, hopens]
  refine
    { lt := fun caller hcaller => hk.lt caller ((hcame caller).1 hcaller)
      fits := fun w hw => ?_
      place := fun caller hcaller => ?_
      due := fun caller hcaller => (hdue caller).2 ?_ }
  · obtain ⟨hcaller, htracks, htold⟩ := hfits w hw
    exact ⟨(hcame w.caller).2 hcaller, htracks.congr (hdue w.caller),
      fun hstage hnow => htold hstage ((hdue w.caller).1 hnow)⟩
  · rcases hk.place caller ((hcame caller).1 hcaller) with hthere | hgone | ⟨w, hw, rfl⟩
    · exact .inl ((through_cons d h).subset hthere)
    · exact .inr (.inl ((gone_cons d h).subset hgone))
    · exact hplace w hw
  · exact (hthrough caller hcaller).elim (hk.due caller) id

/-- That is so, too, if it is about one caller who waits. -/
theorem Kept.replace (hk : Kept h c) (hwaiters : c.waiters = before ++ w :: after)
    (guests : List Waiter) (hopens : ¬d.Opens)
    (hcome : ∀ caller count passes, d ≠ .come caller count passes)
    (hfits : ∀ w' ∈ guests, Fits h c.barrier c.bells w')
    (hthrough : ∀ caller ∈ through (d :: h), caller ∈ through h ∨ Due h caller)
    (hplace : w.caller ∈ through (d :: h) ∨ w.caller ∈ gone (d :: h) ∨
      ∃ w' ∈ guests, w'.caller = w.caller) :
    Kept (d :: h) { c with waiters := before ++ (guests ++ after) } := by
  have hothers := hk.fits
  rw [hwaiters, List.forall_mem_append, List.forall_mem_cons] at hothers
  refine hk.quiet hopens hcome (List.forall_mem_append.2 ⟨hothers.1,
    List.forall_mem_append.2 ⟨hfits, hothers.2.2⟩⟩) hthrough ?_
  rw [hwaiters, List.forall_mem_append, List.forall_mem_cons]
  refine ⟨fun w' hw' => .inr (.inr ⟨w', by simp [hw'], rfl⟩),
    hplace.imp_right (.imp_right ?_), fun w' hw' => .inr (.inr ⟨w', by simp [hw'], rfl⟩)⟩
  rintro ⟨w', hw', heq⟩
  exact ⟨w', by simp [hw'], heq⟩

theorem Kept.step (hk : Kept h c) (hstep : Step c d c') : Kept (d :: h) c' := by
  cases hstep with
  | act a => exact hk.act a
  | announce =>
    refine hk.quiet id (by simp) (List.forall_mem_map.2 fun w hw => ?_) (fun _ => .inl)
      fun w hw => .inr (.inr ⟨_, List.mem_map_of_mem hw, rfl⟩)
    -- all who sleep are told
    refine (hk.fits w hw).restage fun hstage => ?_
    cases hw : w.stage <;> rw [hw] at hstage <;> cases hstage
  | come hnumber =>
    rcases c.barrier.poll_fresh with ⟨hzero, hpoll⟩ | ⟨hpos, hpoll, htracks⟩ <;> rw [hpoll]
    · exact hk.come hnumber (fun _ => hzero) (by simp) (.inl rfl)
    · exact hk.come hnumber (by simp) (by simp [hpos, htracks]) (.inr (by simp))
  | @enrol before after caller wait hwaiters =>
    have hw := hk.fits ⟨caller, wait, .returning⟩ (hwaiters ▸ by simp)
    exact hk.replace hwaiters [⟨caller, wait, .enrolled false⟩] id (by simp)
      (List.forall_mem_singleton.2 (hw.restage (by simp))) (fun _ => .inl) (.inr (.inr (by simp)))
  | @look before after caller wait told hwaiters =>
    have hw := hk.fits ⟨caller, wait, .enrolled told⟩ (hwaiters ▸ by simp)
    refine hk.replace hwaiters _ id (by simp) ?_ ?_ ?_ <;>
      rcases hw.tracks.poll with ⟨hdue, hpoll⟩ | ⟨hnot, hpoll⟩ <;> rw [hpoll]
    · simp
    · exact List.forall_mem_singleton.2 (hw.restage fun _ => hnot)
    · rintro other hother
      rcases List.mem_cons.1 hother with rfl | hother
      · exact .inr hdue
      · exact .inl hother
    · exact fun _ => .inl
    · exact .inl List.mem_cons_self
    · exact .inr (.inr (by simp))
  | @wake before after caller wait hwaiters =>
    have hw := hk.fits ⟨caller, wait, .asleep true⟩ (hwaiters ▸ by simp)
    exact hk.replace hwaiters [⟨caller, wait, .returning⟩] id (by simp)
      (List.forall_mem_singleton.2 (hw.restage (by simp))) (fun _ => .inl) (.inr (.inr (by simp)))
  | leave hwaiters =>
    exact hk.replace hwaiters [] id (by simp) (by simp) (fun _ => .inl)
      (.inr (.inl List.mem_cons_self))

/-! ## Rest -/

theorem sum_effort_tell (waiters : List Waiter) :
    (waiters.map fun w => w.stage.tell.effort).sum ≤
      (waiters.map (·.stage.effort)).sum + 3 * waiters.length := by
  induction waiters with
  | nil => exact Nat.le_refl _
  | cons w waiters ih =>
    have hw := w.stage.effort_tell
    simp only [List.map_cons, List.sum_cons, List.length_cons]
    omega

/-- Whoever waits has less to do after each deed. -/
theorem effort_replace (hwaiters : c.waiters = before ++ w :: after) (guests : List Waiter)
    (hlength : guests.length ≤ 1) (hless : (guests.map (·.stage.effort)).sum < w.stage.effort) :
    effort { c with waiters := before ++ (guests ++ after) } < c.effort := by
  have hbells : c.bells * (3 * (before.length + (guests.length + after.length)) + 1) ≤
      c.bells * (3 * (before.length + (after.length + 1)) + 1) :=
    Nat.mul_le_mul_left _ (by omega)
  simp only [effort, hwaiters, List.map_append, List.map_cons, List.sum_append, List.sum_cons,
    List.length_append, List.length_cons]
  omega

/-- What those who wait do, and the announcements, leave less to do. -/
theorem Step.effort_lt (hstep : Step c d c') (hd : d.Inner) : c'.effort < c.effort := by
  cases hstep with
  | act | come | leave => cases hd
  | announce hbells =>
    have hsum := sum_effort_tell c.waiters
    simp only [effort, hbells, List.map_map, List.length_map, Function.comp_def, Nat.succ_mul]
    omega
  | @enrol before after caller wait hwaiters =>
    exact effort_replace hwaiters [⟨caller, wait, .enrolled false⟩] (by simp)
      (by simp [Stage.effort])
  | @look before after caller wait told hwaiters =>
    refine effort_replace hwaiters _ ?_ ?_ <;> cases wait.poll c.barrier
    · simp
    · simp
    · cases told <;> simp [Stage.effort]
    · cases told <;> simp [Stage.effort]
  | @wake before after caller wait hwaiters =>
    exact effort_replace hwaiters [⟨caller, wait, .returning⟩] (by simp)
      (by simp [Stage.effort])

/-- At rest, nothing is to be announced, and all who wait sleep. -/
theorem asleep_of_rest (hrest : ∀ d c', d.Inner → ¬Step c d c') :
    c.bells = 0 ∧ ∀ w ∈ c.waiters, w.stage = .asleep false := by
  have hnone : ∀ {d c'}, Step c d c' → ¬d.Inner := fun hstep hd => hrest _ _ hd hstep
  constructor
  · cases hbells : c.bells with
    | zero => rfl
    | succ n => exact absurd trivial (hnone (.announce hbells))
  · intro w hw
    obtain ⟨before, after, hwaiters⟩ := List.append_of_mem hw
    obtain ⟨caller, wait, _ | told | _ | _⟩ := w
    · exact absurd trivial (hnone (.enrol hwaiters))
    · exact absurd trivial (hnone (.look hwaiters))
    · rfl
    · exact absurd trivial (hnone (.wake hwaiters))

/-! ## Runs -/

namespace Run

theorem kept (hr : Run h c) : Kept h c := by
  induction hr with
  | start => exact kept_start
  | step _ hstep ih => exact ih.step hstep

theorem count (hr : Run h c) (hfits : ∀ d ∈ h, ¬d.Saturates) :
    c.barrier.count + lowered h = raised h := by
  induction hr with
  | start => rfl
  | @step h c c' d hr hstep ih =>
    obtain ⟨hlast, hfits⟩ := List.forall_mem_cons.1 hfits
    have hsum := ih hfits
    cases hstep with
    | act a =>
      cases a with
      | increase n =>
        have hle : c.barrier.count + n ≤ Saturating.ceiling :=
          Nat.le_of_not_lt fun hlt => hlast ⟨n, rfl, hlt⟩
        have hadd : (c.barrier.act (.increase n)).2.count = c.barrier.count + n :=
          Nat.min_eq_left hle
        have hlowered : lowered (.act c.barrier (.increase n) :: h) = lowered h := rfl
        rw [raised, hlowered, hadd, ← hsum]
        omega
      | decrease n =>
        rcases c.barrier.act_decrease n with ⟨-, hact⟩ | ⟨hle, hact⟩ <;>
          simp only [raised, lowered, hact, reduceCtorEq, if_false, if_true]
        · exact hsum
        · omega
    | announce | come | enrol | look | wake | leave => exact hsum

theorem at_once (hr : Run h c) {count : Nat} (hmem : .come caller count passes ∈ h) :
    passes = true ↔ count = 0 := by
  induction hr with
  | start => exact absurd hmem List.not_mem_nil
  | @step h c c' d hr hstep ih =>
    rcases List.mem_cons.1 hmem with rfl | hmem
    · cases hstep
      rcases c.barrier.poll_fresh with ⟨hzero, hpoll⟩ | ⟨hpos, hpoll, -⟩ <;> rw [hpoll]
      · exact iff_of_true rfl hzero
      · exact iff_of_false Bool.false_ne_true hpos
    · exact ih hmem

/-- Nobody comes twice. So it can be read from the history who is due. -/
theorem due_iff {later earlier : List Deed} {count : Nat}
    (hr : Run (later ++ .come caller count passes :: earlier) c) :
    Due (later ++ .come caller count passes :: earlier) caller ↔
      count = 0 ∨ ∃ d ∈ later, d.Opens := by
  induction later generalizing c with
  | nil =>
    cases hr with
    | step hr hstep =>
      cases hstep with
      | come hnumber =>
        have hnot : ¬Due earlier caller := fun hdue =>
          absurd (hr.kept.lt caller hdue.came) (Nat.not_lt_of_le (Nat.le_of_eq hnumber.symm))
        simp [due_cons, hnot, Deed.Opens]
  | cons d later ih =>
    cases hr with
    | step hr hstep =>
      have hcame : Came (later ++ .come caller count passes :: earlier) caller :=
        ⟨count, passes, List.mem_append_right _ List.mem_cons_self⟩
      have hnot : ∀ passes, d ≠ .come caller 0 passes := by
        intro passes heq
        cases hstep with
        | come hnumber =>
          obtain ⟨rfl, -⟩ := Deed.come.inj heq
          exact absurd (hr.kept.lt _ hcame) (Nat.not_lt_of_le (Nat.le_of_eq hnumber.symm))
        | act | announce | enrol | look | wake | leave => cases heq
      have hlater := ih hr
      simp only [List.cons_append, due_cons, hlater, hnot, hcame, exists_false, false_or, true_and,
        List.mem_cons, exists_eq_or_imp]
      rw [or_assoc, @or_comm _ d.Opens]

/-- In every run, those are let through who are due, and no others. -/
theorem letsThrough (hr : Run h c) : LetsThrough h c where
  refuses n := by
    rcases c.barrier.act_decrease n with ⟨hlt, hact⟩ | ⟨hle, hact⟩ <;> rw [hact]
    · exact ⟨iff_of_true (by simp) hlt, fun _ => rfl⟩
    · exact ⟨iff_of_false (by simp) (Nat.not_lt_of_le hle),
        fun hlt => absurd hlt (Nat.not_lt_of_le hle)⟩
  count := hr.count
  at_once _ _ _ := hr.at_once
  look_iff caller passes c' hstep := by
    cases hstep with
    | @look before after caller wait told hwaiters =>
      have hw := hr.kept.fits ⟨caller, wait, .enrolled told⟩ (hwaiters ▸ by simp)
      rcases hw.tracks.poll with ⟨hdue, hpoll⟩ | ⟨hnot, hpoll⟩ <;> rw [hpoll]
      · exact iff_of_true rfl hdue
      · exact iff_of_false Bool.false_ne_true hnot
  due := hr.kept.due
  closed later caller count passes earlier heq hpos hlater hthrough := by
    subst heq
    rcases hr.due_iff.1 (hr.kept.due caller hthrough) with hzero | ⟨d, hd, hopens⟩
    · exact hpos hzero
    · cases d with
      | act b a =>
        obtain ⟨-, -, -, -, hzero⟩ := hopens
        exact hlater b a hd hzero
      | announce | come | enrol | look | wake | leave => exact hopens
  awake w hw hdue hstage := (hr.kept.fits w hw).told hstage hdue
  settles _ _ hd hstep := hstep.effort_lt hd
  rest hrest caller hcame hgone := by
    refine ⟨hr.kept.due caller, fun hdue => ?_⟩
    obtain ⟨hbells, hasleep⟩ := asleep_of_rest hrest
    rcases hr.kept.place caller hcame with hthrough | hleft | ⟨w, hw, rfl⟩
    · exact hthrough
    · exact absurd hleft hgone
    · -- such a caller would have been told of the opening
      have hpos := (hr.kept.fits w hw).told (hasleep w hw) hdue
      rw [hbells] at hpos
      exact absurd hpos (Nat.lt_irrefl 0)

end Run

/-- An opening is announced before the caller has enrolled, and the count is raised again. But the
    caller looks once more, and is let through. -/
theorem letsThrough_unannounced :
    let a : Caller := ⟨"a", 0⟩
    let h : History := [.look a true, .enrol a, .act ⟨0, 1⟩ (.increase 1), .announce,
      .act ⟨1, 0⟩ (.decrease 1), .act ⟨1, 0⟩ (.decrease 2), .come a 1 false,
      .act ⟨0, 0⟩ (.increase 1)]
    let c : Crowd := ⟨⟨1, 1⟩, 0, [], 1⟩
    Run h c ∧ LetsThrough h c ∧ Due h a ∧ c.barrier.count + lowered h = raised h := by
  intro a h c
  have h₁ : Run (h.drop 7) ⟨⟨1, 0⟩, 0, [], 0⟩ := .step .start (.act (.increase 1))
  have h₂ : Run (h.drop 6) ⟨⟨1, 0⟩, 0, [⟨a, .since 0, .returning⟩], 1⟩ := .step h₁ (.come rfl)
  have h₃ : Run (h.drop 5) ⟨⟨1, 0⟩, 0, [⟨a, .since 0, .returning⟩], 1⟩ :=
    .step h₂ (.act (.decrease 2))
  have h₄ : Run (h.drop 4) ⟨⟨0, 1⟩, 1, [⟨a, .since 0, .returning⟩], 1⟩ :=
    .step h₃ (.act (.decrease 1))
  have h₅ : Run (h.drop 3) ⟨⟨0, 1⟩, 0, [⟨a, .since 0, .returning⟩], 1⟩ := .step h₄ (.announce rfl)
  have h₆ : Run (h.drop 2) ⟨⟨1, 1⟩, 0, [⟨a, .since 0, .returning⟩], 1⟩ :=
    .step h₅ (.act (.increase 1))
  have h₇ : Run (h.drop 1) ⟨⟨1, 1⟩, 0, [⟨a, .since 0, .enrolled false⟩], 1⟩ :=
    .step h₆ (@Step.enrol _ [] [] a (.since 0) rfl)
  have hr : Run h c := .step h₇ (@Step.look _ [] [] a (.since 0) false rfl)
  have hthrough := hr.letsThrough
  exact ⟨hr, hthrough, hthrough.due a List.mem_cons_self, rfl⟩

end Crowd

end ConsensusCore
