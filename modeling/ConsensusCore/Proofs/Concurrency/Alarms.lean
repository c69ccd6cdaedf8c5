import ConsensusCore.Concurrency.Alarms
import ConsensusCore.Proofs.Concurrency.Simulation
import Mathlib.Data.List.Nodup
import Mathlib.Data.List.Perm.Basic
import Mathlib.Data.List.Range
import Mathlib.Data.List.TakeWhile

/-!
# Runs of the alarms

What happens to alarms is kept in a history, the latest first: which were set and cleared, when
the watch looked, was woken, and which went off. All this comes in any order (`Step`): if the
watch is to be woken when its sleep is over, either can come first.

Every alarm that was set is pending, has gone off or was cleared, each in one of the three, and
those that are pending come after all that have gone off (`Kept`). The watch sleeps until the
first of them, or is to be woken. So nothing is due when the watch is at rest.

* `Run.goesOff`: in every run, alarms go off when they are due, in order and once, unless they
  are cleared before;
* `LabelledAlarms.exists_run`: whatever callers do, and whenever, is among the runs;
* `LabelledAlarms.rest_settle`: the watch comes to rest.
-/

namespace ConsensusCore

theorem Moment.le_alarm (now : Nat) (delay : Duration) : now ≤ alarm now delay := by
  rw [alarm]
  split <;> exact Nat.le_add_right _ _

theorem Moment.alarm_of_lt {now : Nat} {delay : Duration}
    (hlt : now + delay.toNanos < horizon) : alarm now delay = now + delay.toNanos :=
  if_pos hlt

/-- In a list in which nothing with a property comes after something without it, nothing is left
    with the property once the front that has it is gone. -/
theorem not_of_mem_dropWhile {α : Type} {r : α → α → Prop} {p : α → Bool} {l : List α}
    (hl : l.Pairwise r) (hp : ∀ a b, r a b → p b = true → p a = true) :
    ∀ b ∈ l.dropWhile p, p b = false := by
  induction l with
  | nil => exact fun _ hb => absurd hb List.not_mem_nil
  | cons a l ih =>
    obtain ⟨ha, hl⟩ := List.pairwise_cons.1 hl
    intro b hb
    rw [List.dropWhile_cons] at hb
    split at hb
    next => exact ih hl b hb
    next hnot =>
      rw [Bool.not_eq_true] at hnot
      rcases List.mem_cons.1 hb with rfl | hb
      · exact hnot
      · exact Bool.eq_false_iff.2 fun hpb => Bool.eq_false_iff.1 hnot (hp a b (ha b hb) hpb)

namespace Alarm

variable {a b c : Alarm}

theorem before_iff : a.before b = true ↔
    a.deadline < b.deadline ∨ a.deadline = b.deadline ∧ a.number ≤ b.number := by
  simp only [before, Bool.or_eq_true, Bool.and_eq_true, decide_eq_true_eq, beq_iff_eq]

theorem before_trans (hab : a.before b = true) (hbc : b.before c = true) : a.before c = true := by
  rw [before_iff] at *
  omega

theorem before_of_not_before (h : a.before b = false) : b.before a = true := by
  rw [← Bool.not_eq_true, before_iff] at h
  rw [before_iff]
  omega

theorem deadline_le_of_before (h : a.before b = true) : a.deadline ≤ b.deadline := by
  rw [before_iff] at h
  omega

end Alarm

namespace Alarms

variable {s s' : Alarms} {a b : Alarm} {now number : Nat}

/-! ## What is pending -/

/-- The alarms that are pending are in the order in which they go off. -/
def Sorted (s : Alarms) : Prop := s.pending.Pairwise fun a b => a.before b = true

/-- The watch sleeps until the first alarm is due, unless it is to be woken. -/
def Watched (s : Alarms) : Prop := ∀ deadline, s.watch = .sleeping deadline →
  s.rearm = true ∨ deadline = s.first?

theorem perm_set (s : Alarms) (a : Alarm) : (s.set a).pending.Perm (a :: s.pending) := by
  have hsplit := List.takeWhile_append_dropWhile (p := (·.before a)) (l := s.pending)
  refine List.perm_middle.trans ?_
  rw [hsplit]

theorem Sorted.set (h : s.Sorted) (a : Alarm) : (s.set a).Sorted := by
  have hbefore : ∀ b ∈ s.pending.takeWhile (·.before a), b.before a = true :=
    fun b hb => (List.mem_takeWhile_imp hb :)
  have hafter : ∀ b ∈ s.pending.dropWhile (·.before a), a.before b = true := fun b hb =>
    Alarm.before_of_not_before (not_of_mem_dropWhile h (fun _ _ => Alarm.before_trans) b hb)
  refine List.pairwise_append.2 ⟨h.sublist (List.takeWhile_sublist _),
    List.pairwise_cons.2 ⟨hafter, h.sublist (List.dropWhile_sublist _)⟩, fun b hb c hc => ?_⟩
  rcases List.mem_cons.1 hc with rfl | hc
  · exact hbefore b hb
  · exact Alarm.before_trans (hbefore b hb) (hafter c hc)

/-- Setting an alarm wakes the watch if it is the first one. -/
theorem Watched.set (h : s.Watched) (a : Alarm) : (s.set a).Watched := by
  intro deadline hdeadline
  have hrearm : (s.set a).rearm = (s.rearm || (s.pending.takeWhile (·.before a)).isEmpty) := rfl
  rcases h deadline hdeadline with hwoken | heq
  · exact .inl (by rw [hrearm, hwoken, Bool.true_or])
  · cases hpending : s.pending with
    | nil =>
      rw [hrearm, hpending, List.takeWhile_nil, List.isEmpty_nil, Bool.or_true]
      exact .inl rfl
    | cons b l =>
      cases hb : b.before a with
      | false =>
        rw [hrearm, hpending, List.takeWhile_cons_of_neg (by simp [hb]), List.isEmpty_nil,
          Bool.or_true]
        exact .inl rfl
      | true =>
        right
        rw [heq, first?, first?, Alarms.set, hpending]
        simp only [List.takeWhile_cons, hb, if_true, List.cons_append, List.head?_cons]

/-- What clearing an alarm does: it takes it away, and wakes the watch if it was the first. -/
theorem clear?_eq_some (h : s.clear? number = some s') :
    ∃ before a after, s.pending = before ++ a :: after ∧ a.number = number ∧
      s' = { s with pending := before ++ after, rearm := s.rearm || before.isEmpty } := by
  obtain ⟨i, hi, rfl⟩ := Option.map_eq_some_iff.1 h
  obtain ⟨hlength, hnumber, -⟩ := List.findIdx?_eq_some_iff_getElem.1 hi
  refine ⟨s.pending.take i, s.pending[i], s.pending.drop (i + 1), ?_, beq_iff_eq.1 hnumber, ?_⟩
  · rw [List.getElem_cons_drop, List.take_append_drop]
  · have hfirst : (s.pending.take i).isEmpty = (i == 0) := by
      rw [Bool.eq_iff_iff, List.isEmpty_iff, beq_iff_eq, List.take_eq_nil_iff]
      exact or_iff_left (List.ne_nil_of_length_pos (Nat.zero_lt_of_lt hlength))
    rw [List.eraseIdx_eq_take_drop_succ, hfirst]

theorem clear?_eq_none : s.clear? number = none ↔ ∀ a ∈ s.pending, a.number ≠ number := by
  simp [clear?]

/-- Clearing only changes what is pending, and may wake the watch. -/
theorem exists_clear (s : Alarms) (number : Nat) :
    ∃ pending rearm, (s.clear? number).getD s = { s with pending, rearm } := by
  cases hclear : s.clear? number with
  | none => exact ⟨s.pending, s.rearm, rfl⟩
  | some s' =>
    obtain ⟨-, -, -, -, -, rfl⟩ := clear?_eq_some hclear
    exact ⟨_, _, rfl⟩

theorem Watched.clear (h : s.Watched) (hclear : s.clear? number = some s') : s'.Watched := by
  obtain ⟨before, a, after, hpending, -, rfl⟩ := clear?_eq_some hclear
  intro deadline hdeadline
  rcases h deadline hdeadline with hwoken | heq
  · exact .inl (by simp only [hwoken, Bool.true_or])
  · cases before with
    | nil => exact .inl (Bool.or_true _)
    | cons b before =>
      right
      rw [heq, first?, first?, hpending]
      rfl

/-- At rest the watch sleeps until the first alarm is due, which is later. -/
theorem Watched.rest (h : s.Watched) (halive : s.alive = true) (hrest : s.work now = none) :
    s.due = s.first? ∧ ∀ deadline, s.first? = some deadline → now < deadline := by
  simp only [work, halive, Bool.not_true, Bool.false_eq_true, if_false] at hrest
  cases hwatch : s.watch with
  | looking =>
    rw [hwatch] at hrest
    cases hrest
  | sleeping deadline =>
    rw [hwatch] at hrest
    dsimp only at hrest
    split at hrest
    next => cases hrest
    next hnot =>
      split at hrest
      next => cases hrest
      next hlater =>
        have heq := (h deadline hwatch).resolve_left hnot
        refine ⟨by rw [due, halive, hwatch, heq], fun d hd => ?_⟩
        rw [heq, hd, Option.any_some, decide_eq_true_eq] at hlater
        exact Nat.lt_of_not_le hlater

theorem Sorted.lt_of_first (h : s.Sorted)
    (hfirst : ∀ deadline, s.first? = some deadline → now < deadline) :
    ∀ a ∈ s.pending, now < a.deadline := by
  rw [Sorted] at h
  rw [first?] at hfirst
  cases hpending : s.pending with
  | nil => exact fun _ ha => absurd ha List.not_mem_nil
  | cons b l =>
    rw [hpending] at h hfirst
    have hb := hfirst b.deadline rfl
    intro a ha
    rcases List.mem_cons.1 ha with rfl | ha
    · exact hb
    · exact Nat.lt_of_lt_of_le hb
        (Alarm.deadline_le_of_before ((List.pairwise_cons.1 h).1 a ha))

/-! ## Histories -/

/-- What happens to alarms. -/
inductive Deed where
  | set (a : Alarm)
  /-- An alarm is cleared, if it was found. -/
  | clear (number : Nat) (found : Bool)
  /-- The watch looks for the first alarm. -/
  | look
  | wake
  | ring (events : List Event)

/-- What can happen next. -/
inductive Step (now : Nat) (s : Alarms) : Deed → Alarms → Prop
  | set (delay : Duration) (label : String) (panics : Bool) :
    Step now s (.set (s.upcoming now delay label panics))
      (s.set (s.upcoming now delay label panics))
  | clear (number : Nat) :
    Step now s (.clear number (s.clear? number).isSome) ((s.clear? number).getD s)
  | look : s.watch = .looking → Step now s .look { s with watch := .sleeping s.first? }
  | wake {deadline : Option Nat} : s.watch = .sleeping deadline → s.rearm = true →
    Step now s .wake { s with watch := .looking, rearm := false }
  | ring {deadline : Nat} : s.watch = .sleeping (some deadline) → deadline ≤ now →
    Step now s (.ring (s.ring now).1) (s.ring now).2

theorem Step.alive_eq (hstep : Step now s deed s') : s'.alive = s.alive := by
  cases hstep with
  | clear number =>
    obtain ⟨pending, rearm, heq⟩ := exists_clear s number
    rw [heq]
  | set | look | wake | ring => rfl

/-- Within the time of the clock, an alarm goes off when the delay is over. -/
theorem Step.set_of_lt {deadline : Nat} (delay : Duration) (label : String) (panics : Bool)
    (hdeadline : now + delay.toNanos = deadline) (hlt : deadline < Moment.horizon) :
    Step now s (.set ⟨deadline, s.next, label, panics⟩)
      (s.set ⟨deadline, s.next, label, panics⟩) := by
  subst hdeadline
  have hset : Step now s _ _ := .set delay label panics
  rwa [upcoming, Moment.alarm_of_lt hlt] at hset

/-- What has happened, and when, the latest first. -/
abbrev History := List (Nat × Deed)

/-- Alarms with their history. The clock does not go back. -/
inductive Run : History → Alarms → Prop
  | start : Run [] .empty
  | step {h : History} {s s' : Alarms} {now : Nat} {deed : Deed} : Run h s →
    (∀ e ∈ h, e.1 ≤ now) → Step now s deed s' → Run ((now, deed) :: h) s'

/-- The alarms that were set, the latest first. -/
def sets : History → List Alarm
  | [] => []
  | (_, .set a) :: h => a :: sets h
  | _ :: h => sets h

/-- The numbers of the alarms that were cleared, the latest first. -/
def cleared : History → List Nat
  | [] => []
  | (_, .clear number true) :: h => number :: cleared h
  | _ :: h => cleared h

/-- The alarms that went off in some events. -/
def rang (events : List Event) : List Alarm :=
  events.filterMap fun
    | .rang a => some a
    | .brokeOff _ => none

/-- The alarms that went off, and when, the latest first. -/
def rung : History → List (Nat × Alarm)
  | [] => []
  | (now, .ring events) :: h => ((rang events).map (now, ·)).reverse ++ rung h
  | _ :: h => rung h

/-- The alarms that are to go off: those that were set, have not gone off and were not cleared. -/
def waiting (h : History) : List Alarm :=
  (sets h).filter fun a =>
    decide (a.number ∉ (rung h).map (·.2.number)) && decide (a.number ∉ cleared h)

/-- What a run of the alarms is to be like. -/
structure GoesOff (h : History) (s : Alarms) : Prop where
  /-- At rest, those have gone off that are due, but for those that were cleared before. -/
  exact : ∀ now, (∀ e ∈ h, e.1 ≤ now) → s.work now = none →
    ∀ a, a ∈ (rung h).map (·.2) ↔ a ∈ sets h ∧ a.deadline ≤ now ∧ a.number ∉ cleared h
  /-- None goes off twice. -/
  once : ((rung h).map (·.2.number)).Nodup
  /-- None goes off before its time. -/
  on_time : ∀ e ∈ rung h, e.2.deadline ≤ e.1
  /-- They go off in the order of their moments, and of their numbers among equal moments. -/
  in_order : (rung h).Pairwise fun later earlier => earlier.2.deadline < later.2.deadline ∨
    earlier.2.deadline = later.2.deadline ∧ earlier.2.number < later.2.number
  /-- An alarm can be cleared as long as it is to go off. -/
  clear_iff : ∀ now number found s', Step now s (.clear number found) s' →
    (found = true ↔ ∃ a ∈ waiting h, a.number = number)
  /-- One that was cleared does not go off. -/
  silent : ∀ number ∈ cleared h, number ∉ (rung h).map (·.2.number)
  /-- Those that are pending are those that are to go off. -/
  length : s.pending.length = (waiting h).length
  /-- At rest, the watch sleeps until the first is due. -/
  armed : ∀ now, s.work now = none → s.due = s.first?

variable {h : History} {deed : Deed}

theorem rang_append (events events' : List Event) :
    rang (events ++ events') = rang events ++ rang events' :=
  List.filterMap_append

/-- Whether the telling of alarms breaks off or not, all of them go off. -/
theorem rang_flatMap_ring (l : List Alarm) : rang (l.flatMap Alarm.ring) = l := by
  induction l with
  | nil => rfl
  | cons a l ih =>
    rw [List.flatMap_cons, rang_append, ih, Alarm.ring]
    cases a.panics <;> rfl

/-! ## What each deed keeps -/

/-- What links alarms and their history. -/
structure Kept (h : History) (s : Alarms) : Prop where
  alive : s.alive = true
  places : (s.pending.map (·.number) ++ ((rung h).map (·.2.number) ++ cleared h)).Perm
    ((sets h).map (·.number))
  pending_of_set : ∀ a ∈ s.pending, a ∈ sets h
  rung_of_set : ∀ e ∈ rung h, e.2 ∈ sets h
  sorted : s.Sorted
  watched : s.Watched
  on_time : ∀ e ∈ rung h, e.2.deadline ≤ e.1
  in_order : (rung h).Pairwise fun later earlier => earlier.2.before later.2 = true
  ahead : ∀ e ∈ rung h, ∀ a ∈ s.pending, e.2.before a = true

theorem kept_start : Kept [] empty where
  alive := rfl
  places := .refl _
  pending_of_set _ ha := absurd ha List.not_mem_nil
  rung_of_set _ he := absurd he List.not_mem_nil
  sorted := .nil
  watched _ hwatch := by cases hwatch
  on_time _ he := absurd he List.not_mem_nil
  in_order := .nil
  ahead _ he := absurd he List.not_mem_nil

namespace Kept

variable (hk : Kept h s)
include hk

/-- What is set now comes after all that has gone off. -/
theorem set (hnow : ∀ e ∈ rung h, e.1 ≤ now) (hnumber : ∀ b ∈ sets h, b.number < a.number)
    (hdeadline : now ≤ a.deadline) : Kept ((now, .set a) :: h) (s.set a) := by
  have hperm := perm_set s a
  have hmem : ∀ b, b ∈ (s.set a).pending ↔ b = a ∨ b ∈ s.pending := fun b =>
    hperm.mem_iff.trans List.mem_cons
  refine
    { alive := hk.alive
      places := ((hperm.map _).append_right _).trans (hk.places.cons _)
      pending_of_set := fun b hb => ?_
      rung_of_set := fun e he => List.mem_cons_of_mem _ (hk.rung_of_set e he)
      sorted := hk.sorted.set a
      watched := hk.watched.set a
      on_time := hk.on_time
      in_order := hk.in_order
      ahead := fun e he b hb => ?_ }
  · rcases (hmem b).1 hb with rfl | hb
    · exact List.mem_cons_self
    · exact List.mem_cons_of_mem _ (hk.pending_of_set b hb)
  · rcases (hmem b).1 hb with rfl | hb
    · have hle := Nat.le_trans (hk.on_time e he) (Nat.le_trans (hnow e he) hdeadline)
      -- both may be for the present moment, and then the numbers decide
      have hlt := hnumber e.2 (hk.rung_of_set e he)
      rw [Alarm.before_iff]
      omega
    · exact hk.ahead e he b hb

theorem clear (now number : Nat) : Kept ((now, .clear number (s.clear? number).isSome) :: h)
    ((s.clear? number).getD s) := by
  cases hclear : s.clear? number with
  | none => exact { hk with }
  | some s' =>
    have hwatched := hk.watched.clear hclear
    obtain ⟨before, a, after, hpending, rfl, rfl⟩ := clear?_eq_some hclear
    have hsub : (before ++ after).Sublist s.pending := by
      rw [hpending]
      exact (List.sublist_cons_self a after).append_left before
    refine
      { hk with
        places := ?_
        pending_of_set := fun b hb => hk.pending_of_set b (hsub.subset hb)
        sorted := hk.sorted.sublist hsub
        watched := hwatched
        ahead := fun e he b hb => hk.ahead e he b (hsub.subset hb) }
    refine List.Perm.trans ?_ hk.places
    have hmoved : (s.pending.map (·.number)).Perm
        (a.number :: (before ++ after).map (·.number)) := by
      rw [hpending]
      exact List.perm_middle.map _
    refine List.Perm.trans ?_ (hmoved.append_right _).symm
    change ((before ++ after).map (·.number) ++
      ((rung h).map (·.2.number) ++ a.number :: cleared h)).Perm _
    rw [← List.append_assoc, List.cons_append, ← List.append_assoc]
    exact List.perm_middle

/-- What goes off now comes after all that went off before, and before all that goes off later. -/
theorem ring (now : Nat) : Kept ((now, .ring (s.ring now).1) :: h) (s.ring now).2 := by
  have hsplit := List.takeWhile_append_dropWhile (p := (·.deadline ≤ now)) (l := s.pending)
  have hdue : ∀ a ∈ s.pending.takeWhile (·.deadline ≤ now), a.deadline ≤ now := fun a ha =>
    of_decide_eq_true (List.mem_takeWhile_imp ha :)
  have hrung : rung ((now, .ring (s.ring now).1) :: h) =
      ((s.pending.takeWhile (·.deadline ≤ now)).map (now, ·)).reverse ++ rung h := by
    rw [rung, Alarms.ring, rang_flatMap_ring]
  -- all that is known of what is pending, told of what goes off and of what does not
  have hsorted := hk.sorted
  have hplaces := hk.places
  have hset := hk.pending_of_set
  have hahead := hk.ahead
  rw [Sorted] at hsorted
  rw [← hsplit] at hsorted hplaces hset hahead
  obtain ⟨htake, hdrop, hcross⟩ := List.pairwise_append.1 hsorted
  change Kept _ { s with
    pending := s.pending.dropWhile (·.deadline ≤ now), watch := .looking }
  generalize s.pending.takeWhile (·.deadline ≤ now) = due at *
  generalize s.pending.dropWhile (·.deadline ≤ now) = rest at *
  have hmem : ∀ e ∈ rung ((now, .ring (s.ring now).1) :: h),
      e.1 = now ∧ e.2 ∈ due ∨ e ∈ rung h := by
    intro e he
    rw [hrung, List.mem_append, List.mem_reverse] at he
    refine he.imp_left fun he => ?_
    obtain ⟨a, ha, rfl⟩ := List.mem_map.1 he
    exact ⟨rfl, ha⟩
  refine
    { alive := hk.alive
      places := ?_
      pending_of_set := fun a ha => hset a (List.mem_append_right _ ha)
      rung_of_set := fun e he => ?_
      sorted := hdrop
      watched := fun _ hwatch => by cases hwatch
      on_time := fun e he => ?_
      in_order := ?_
      ahead := fun e he a ha => ?_ }
  · refine List.Perm.trans ?_ hplaces
    rw [hrung, List.map_append, List.map_append, List.map_reverse, List.map_map, List.append_assoc,
      List.append_assoc]
    refine (List.perm_append_comm_assoc _ _ _).trans ?_
    exact (List.reverse_perm _).append_right _
  · rcases hmem e he with ⟨-, he⟩ | he
    · exact hset e.2 (List.mem_append_left _ he)
    · exact hk.rung_of_set e he
  · rcases hmem e he with ⟨hnow, he⟩ | he
    · exact hnow ▸ hdue e.2 he
    · exact hk.on_time e he
  · rw [hrung, List.pairwise_append]
    refine ⟨List.pairwise_reverse.2 (List.pairwise_map.2 htake), hk.in_order, fun e he e' he' => ?_⟩
    obtain ⟨a, ha, rfl⟩ := List.mem_map.1 (List.mem_reverse.1 he)
    exact hahead e' he' a (List.mem_append_left _ ha)
  · rcases hmem e he with ⟨-, he⟩ | he
    · exact hcross e.2 he a ha
    · exact hahead e he a (List.mem_append_right _ ha)

theorem step (hnow : ∀ e ∈ rung h, e.1 ≤ now) (hstep : Step now s deed s')
    (hnumber : ∀ a, deed = .set a → ∀ b ∈ sets h, b.number < a.number) :
    Kept ((now, deed) :: h) s' := by
  cases hstep with
  | set delay label panics => exact hk.set hnow (hnumber _ rfl) (Moment.le_alarm now delay)
  | clear number => exact hk.clear now number
  | look hwatch =>
    refine { hk with watched := fun deadline hdeadline => ?_ }
    cases hdeadline
    exact .inr rfl
  | wake hwatch hrearm =>
    refine { hk with watched := fun deadline hdeadline => ?_ }
    cases hdeadline
  | ring hwatch hdue => exact hk.ring now

/-- Every alarm that was set is in one of three places, and in no other. -/
theorem place (hids : ((sets h).map (·.number)).Nodup) (ha : a ∈ sets h) :
    a ∈ s.pending ∨ a ∈ (rung h).map (·.2) ∨ a.number ∈ cleared h := by
  have hmem : a.number ∈ (sets h).map (·.number) := List.mem_map_of_mem ha
  rw [← hk.places.mem_iff, List.mem_append, List.mem_append] at hmem
  refine hmem.imp (fun hmem => ?_) (.imp_left fun hmem => ?_)
  · obtain ⟨b, hb, hnumber⟩ := List.mem_map.1 hmem
    rwa [← List.inj_on_of_nodup_map hids (hk.pending_of_set b hb) ha hnumber]
  · obtain ⟨e, he, hnumber⟩ := List.mem_map.1 hmem
    rw [← List.inj_on_of_nodup_map hids (hk.rung_of_set e he) ha hnumber]
    exact List.mem_map_of_mem he

/-- What is pending is what is to go off. -/
theorem perm_waiting (hids : ((sets h).map (·.number)).Nodup) :
    s.pending.Perm (waiting h) := by
  obtain ⟨hpending, -, hapart⟩ := List.nodup_append.1 (hk.places.nodup_iff.2 hids)
  refine (List.perm_ext_iff_of_nodup (.of_map _ hpending)
    ((List.Nodup.of_map _ hids).filter _)).2 fun a => ?_
  simp only [List.mem_filter, Bool.and_eq_true, decide_eq_true_eq]
  constructor
  · intro ha
    have hnot : a.number ∉ (rung h).map (·.2.number) ++ cleared h := fun hmem =>
      hapart _ (List.mem_map_of_mem ha) _ hmem rfl
    rw [List.mem_append, not_or] at hnot
    exact ⟨hk.pending_of_set a ha, hnot⟩
  · rintro ⟨ha, hrung, hcleared⟩
    rcases hk.place hids ha with ha | ha | ha
    · exact ha
    · obtain ⟨e, he, rfl⟩ := List.mem_map.1 ha
      exact absurd (List.mem_map_of_mem he) hrung
    · exact absurd ha hcleared

end Kept

/-! ## Numbers -/

/-- Numbers are given one after the other, in 64 bits. -/
structure Numbered (h : History) (s : Alarms) : Prop where
  next : s.next = (sets h).length % UInt64.size
  numbers : (sets h).map (·.number) =
    ((List.range (sets h).length).map (· % UInt64.size)).reverse

theorem Numbered.step (hn : Numbered h s) (hstep : Step now s deed s') :
    Numbered ((now, deed) :: h) s' := by
  cases hstep with
  | set delay label panics =>
    constructor
    · change (s.next + 1) % UInt64.size = ((sets h).length + 1) % UInt64.size
      rw [hn.next, Nat.mod_add_mod]
    · change s.next :: (sets h).map (·.number) =
        ((List.range ((sets h).length + 1)).map (· % UInt64.size)).reverse
      rw [List.range_succ, List.map_append, List.reverse_append, hn.numbers, hn.next]
      rfl
  | clear number =>
    obtain ⟨pending, rearm, heq⟩ := exists_clear s number
    rw [heq]
    exact ⟨hn.next, hn.numbers⟩
  | look | wake | ring => exact ⟨hn.next, hn.numbers⟩

/-- Alarms have numbers of their own as long as there are no more alarms than numbers. -/
theorem Numbered.distinct_iff (hn : Numbered h s) :
    ((sets h).map (·.number)).Nodup ↔ (sets h).length ≤ UInt64.size := by
  rw [hn.numbers, List.nodup_reverse]
  constructor
  · intro hids
    by_contra hlt
    rw [Nat.not_le] at hlt
    -- once all numbers have been given, the next alarm has that of the first one
    have hzero := List.inj_on_of_nodup_map hids (List.mem_range.2 hlt)
      (List.mem_range.2 (Nat.zero_lt_of_lt hlt)) (Nat.mod_self _)
    cases hzero
  · refine fun hle => List.nodup_range.map_on fun i hi j hj heq => ?_
    rw [List.mem_range] at hi hj
    rwa [Nat.mod_eq_of_lt (Nat.lt_of_lt_of_le hi hle),
      Nat.mod_eq_of_lt (Nat.lt_of_lt_of_le hj hle)] at heq

theorem Numbered.lt_next (hn : Numbered h s) (hlt : (sets h).length < UInt64.size)
    (ha : a ∈ sets h) : a.number < s.next := by
  have hmem : a.number ∈ (sets h).map (·.number) := List.mem_map_of_mem ha
  rw [hn.numbers, List.mem_reverse] at hmem
  obtain ⟨i, hi, hnumber⟩ := List.mem_map.1 hmem
  rw [hn.next, Nat.mod_eq_of_lt hlt, ← hnumber]
  exact Nat.lt_of_le_of_lt (Nat.mod_le _ _) (List.mem_range.1 hi)

/-! ## Runs -/

theorem sets_cons (e : Nat × Deed) (h : History) : sets h <:+ sets (e :: h) := by
  obtain ⟨now, deed⟩ := e
  cases deed with
  | set a => exact List.suffix_cons a (sets h)
  | clear | look | wake | ring => exact List.suffix_rfl

/-- What went off did so when something happened. -/
theorem exists_of_mem_rung {e : Nat × Alarm} (he : e ∈ rung h) : ∃ e' ∈ h, e'.1 = e.1 := by
  induction h with
  | nil => exact absurd he List.not_mem_nil
  | cons e' h ih =>
    obtain ⟨now, deed⟩ := e'
    have hlater (he : e ∈ rung h) : ∃ e' ∈ (now, deed) :: h, e'.1 = e.1 :=
      (ih he).imp fun _ he' => ⟨List.mem_cons_of_mem _ he'.1, he'.2⟩
    cases deed with
    | ring events =>
      rcases List.mem_append.1 he with he | he
      · obtain ⟨a, -, rfl⟩ := List.mem_map.1 (List.mem_reverse.1 he)
        exact ⟨_, List.mem_cons_self, rfl⟩
      · exact hlater he
    | set | clear | look | wake => exact hlater he

namespace Run

theorem numbered (hr : Run h s) : Numbered h s := by
  induction hr with
  | start => exact ⟨rfl, rfl⟩
  | step _ _ hstep ih => exact ih.step hstep

theorem kept (hr : Run h s) (hids : ((sets h).map (·.number)).Nodup) : Kept h s := by
  induction hr with
  | start => exact kept_start
  | @step h s s' now deed hr hnow hstep ih =>
    have hearlier := hids.sublist ((sets_cons (now, deed) h).sublist.map _)
    refine (ih hearlier).step (fun e he => ?_) hstep ?_
    · obtain ⟨e', he', heq⟩ := exists_of_mem_rung he
      exact heq ▸ hnow e' he'
    · rintro a rfl b hb
      -- with this alarm, too, there are no more alarms than numbers
      have hlt := (hr.numbered.step hstep).distinct_iff.1 hids
      cases hstep
      exact hr.numbered.lt_next hlt hb

/-- In every run in which alarms have numbers of their own, they go off when they are due,
    in order and once, unless they are cleared before. -/
theorem goesOff (hr : Run h s) (hids : ((sets h).map (·.number)).Nodup) : GoesOff h s := by
  have hk := hr.kept hids
  have hperm := hk.perm_waiting hids
  obtain ⟨-, hgone, -⟩ := List.nodup_append.1 (hk.places.nodup_iff.2 hids)
  obtain ⟨honce, -, hapart⟩ := List.nodup_append.1 hgone
  have hsilent : ∀ number ∈ cleared h, number ∉ (rung h).map (·.2.number) :=
    fun number hcleared hrung => hapart number hrung number hcleared rfl
  refine
    { exact := fun now hnow hrest a => ?_
      once := honce
      on_time := hk.on_time
      in_order := ?_
      clear_iff := fun now number found s' hstep => ?_
      silent := hsilent
      length := hperm.length_eq
      armed := fun now hrest => (hk.watched.rest hk.alive hrest).1 }
  · have hlater := hk.sorted.lt_of_first (hk.watched.rest hk.alive hrest).2
    constructor
    · intro hrung
      obtain ⟨e, he, rfl⟩ := List.mem_map.1 hrung
      obtain ⟨e', he', heq⟩ := exists_of_mem_rung he
      exact ⟨hk.rung_of_set e he, Nat.le_trans (hk.on_time e he) (heq ▸ hnow e' he'),
        fun hcleared => hsilent _ hcleared (List.mem_map_of_mem he)⟩
    · rintro ⟨ha, hdue, hcleared⟩
      rcases hk.place hids ha with ha | ha | ha
      · exact absurd hdue (Nat.not_le_of_lt (hlater a ha))
      · exact ha
      · exact absurd ha hcleared
  · refine (hk.in_order.and (List.pairwise_map.1 honce)).imp fun ⟨hbefore, hne⟩ => ?_
    rw [Alarm.before_iff] at hbefore
    omega
  · cases hstep
    rw [Option.isSome_iff_ne_none, ne_eq, clear?_eq_none]
    simp only [hperm.mem_iff, not_forall, not_not, exists_prop]

end Run

/-- Two alarms of which one breaks off share a moment, and a third is cleared; time then jumps past
    all of them at once. -/
theorem goesOff_jump :
    let late : Alarm := ⟨30000000, 0, "late", false⟩
    let first : Alarm := ⟨10000000, 1, "first", true⟩
    let second : Alarm := ⟨10000000, 2, "second", false⟩
    let never : Alarm := ⟨20000000, 3, "never", false⟩
    let h : History := [(40000000, .look),
      (40000000, .ring [.rang first, .brokeOff 1, .rang second, .rang late]), (5000000, .look),
      (5000000, .wake), (5000000, .clear 3 true), (0, .set never), (0, .set second),
      (0, .set first), (0, .look), (0, .set late)]
    ((sets h).map (·.number)).Nodup ∧ Run h ⟨[], 4, .sleeping none, false, true⟩ ∧
      GoesOff h ⟨[], 4, .sleeping none, false, true⟩ ∧
      rung h = [(40000000, late), (40000000, second), (40000000, first)] := by
  intro late first second never h
  have hids : ((sets h).map (·.number)).Nodup := by decide
  have hr : Run h ⟨[], 4, .sleeping none, false, true⟩ := by
    have h₁ : Run (h.drop 9) ⟨[late], 1, .looking, true, true⟩ :=
      .step .start (by decide) (.set_of_lt (.ofMillis 30) _ _ (by decide) (by decide))
    have h₂ : Run (h.drop 7) ⟨[first, late], 2, .sleeping (some late.deadline), true, true⟩ :=
      .step (.step h₁ (by decide) (.look rfl)) (by decide)
        (.set_of_lt (.ofMillis 10) _ _ (by decide) (by decide))
    have h₃ : Run (h.drop 6)
        ⟨[first, second, late], 3, .sleeping (some late.deadline), true, true⟩ :=
      .step h₂ (by decide) (.set_of_lt (.ofMillis 10) _ _ (by decide) (by decide))
    have h₄ : Run (h.drop 5)
        ⟨[first, second, never, late], 4, .sleeping (some late.deadline), true, true⟩ :=
      .step h₃ (by decide) (.set_of_lt (.ofMillis 20) _ _ (by decide) (by decide))
    have h₅ : Run (h.drop 3) ⟨[first, second, late], 4, .looking, false, true⟩ :=
      .step (.step h₄ (by decide) (.clear 3)) (by decide) (.wake rfl rfl)
    have h₆ : Run (h.drop 1) ⟨[], 4, .looking, false, true⟩ :=
      .step (.step h₅ (by decide) (.look rfl)) (by decide) (.ring rfl (by decide))
    exact .step h₆ (by decide) (.look rfl)
  exact ⟨hids, hr, hr.goesOff hids, rfl⟩

/-! ## Alarms among callers -/

/-- What happens by a deed. -/
def Deed.events : Deed → List Event
  | .ring events => events
  | _ => []

/-- How many steps the watch can do at one moment, if nobody sets or clears an alarm. -/
def effort (now : Nat) (s : Alarms) : Nat :=
  let overdue := (s.first?.any (· ≤ now)).toNat
  match s.watch with
  | .looking => 2 * s.rearm.toNat + 2 * overdue + 1
  | .sleeping deadline =>
    if s.rearm then 2 * overdue + 2 else 2 * (deadline.any (· ≤ now)).toNat

theorem effort_le (now : Nat) (s : Alarms) : s.effort now ≤ 5 := by
  have hrearm := Bool.toNat_le s.rearm
  have hoverdue := Bool.toNat_le (s.first?.any (· ≤ now))
  simp only [effort]
  split
  next => omega
  next deadline _ =>
    have hdeadline := Bool.toNat_le (deadline.any (· ≤ now))
    split <;> omega

/-- After all have gone off that are due, the first is not due. -/
theorem first?_ring (now : Nat) (s : Alarms) : (s.ring now).2.first?.any (· ≤ now) = false := by
  rw [first?, Alarms.ring, Option.any_map]
  cases hhead : (s.pending.dropWhile (·.deadline ≤ now)).head? with
  | none => rfl
  | some a =>
    have hnot := List.head?_dropWhile_not (fun a : Alarm => decide (a.deadline ≤ now)) s.pending
    rw [hhead] at hnot
    simpa using hnot

/-- The work of the watch is done in steps, of which there are not many. -/
theorem step_of_work {events : List Event} (hwork : s.work now = some (s', events)) :
    ∃ deed, Step now s deed s' ∧ deed.events = events ∧ s'.effort now < s.effort now := by
  simp only [work] at hwork
  split at hwork
  next => cases hwork
  next =>
    split at hwork
    next hwatch =>
      cases hwork
      refine ⟨.look, .look hwatch, rfl, ?_⟩
      simp only [effort, first?, hwatch]
      split
      next hrearm =>
        rw [hrearm, Bool.toNat_true]
        omega
      next => omega
    next deadline hwatch =>
      split at hwork
      next hrearm =>
        cases hwork
        refine ⟨.wake, .wake hwatch hrearm, rfl, ?_⟩
        simp only [effort, first?, hwatch, hrearm, if_true, Bool.toNat_false]
        omega
      next hrearm =>
        split at hwork
        next hdue =>
          cases hwork
          obtain ⟨d, rfl, hd⟩ := (Option.any_eq_true _ _).1 hdue
          refine ⟨.ring (s.ring now).1, .ring hwatch (of_decide_eq_true hd), rfl, ?_⟩
          have hoverdue := first?_ring now s
          have hrung : (s.ring now).2.effort now =
              2 * s.rearm.toNat + 2 * ((s.ring now).2.first?.any (· ≤ now)).toNat + 1 := rfl
          rw [hrung, hoverdue, effort, hwatch]
          simp [hrearm, hdue]
        next => cases hwork

end Alarms

namespace LabelledAlarms

open Alarms

/-- What is told by a deed are the labels of the alarms that go off. -/
theorem filterMap_told? (events : List Event) :
    events.filterMap told? = (rang events).map (·.label) := by
  rw [rang, List.map_filterMap]
  refine List.filterMap_congr fun event _ => ?_
  cases event <;> rfl

/-- The labels of the alarms that went off, and when, the earliest first. -/
def labels (h : History) : List (Nat × String) :=
  ((rung h).map fun e => (e.1, e.2.label)).reverse

theorem labels_cons (now : Nat) (deed : Deed) (h : History) :
    labels ((now, deed) :: h) = labels h ++ (deed.events.filterMap told?).map (now, ·) := by
  cases deed with
  | ring events =>
    simp [labels, rung, Deed.events, filterMap_told?, Function.comp_def]
  | set | clear | look | wake => exact (List.append_nil _).symm

/-- Setting and clearing alarms are steps, unless no alarm has the label; giving them up is the end
    of them. -/
theorem act_cases (now : Nat) (s : LabelledAlarms) (a : Action) :
    (∃ deed, Step now s.alarms deed (s.act now a).2.alarms ∧ deed.events = []) ∨
    (s.act now a).2.alarms = s.alarms ∨ (s.act now a).2.alarms.alive = false := by
  cases a with
  | set delay label panics => exact .inl ⟨_, .set delay label panics, rfl⟩
  | clear label =>
    cases hnumber : s.latest.lookup label with
    | none => exact .inr (.inl (by simp only [act, hnumber, Option.bind_none]))
    | some number =>
      have halarms : (s.act now (.clear label)).2.alarms =
          (s.alarms.clear? number).getD s.alarms := by
        simp only [act, hnumber, Option.bind_some]
        cases s.alarms.clear? number <;> rfl
      rw [halarms]
      exact .inl ⟨_, .clear number, rfl⟩
  | drop => exact .inr (.inr rfl)

/-- Whatever callers do, and whenever, the alarms have a history until they are given up. -/
theorem exists_run {new : Empty → Prop} {s : Simulation LabelledAlarms Empty String}
    (hs : Simulation.Reach new (.start .empty) s) (halive : s.state.alarms.alive = true) :
    ∃ h, Run h s.state.alarms ∧ (∀ e ∈ h, e.1 ≤ s.moment) ∧
      labels h = s.log.map fun e => (Moment.ofMillis e.1, e.2) := by
  induction hs with
  | refl => exact ⟨[], .start, fun e he => absurd he List.not_mem_nil, rfl⟩
  | @tail s s' _ hstep ih =>
    -- no step brings alarms back that have been given up, so they were there before
    rcases hstep.uncalled with ⟨a, rfl⟩ | ⟨state, told, hwork, rfl⟩ | ⟨ms, rfl⟩
    · rcases act_cases s.moment s.state a with ⟨deed, hdeed, hsilent⟩ | hsame | hdead
      · obtain ⟨h, hr, hnow, hlog⟩ := ih (hdeed.alive_eq ▸ halive)
        refine ⟨_, hr.step hnow hdeed, List.forall_mem_cons.2 ⟨Nat.le_refl _, hnow⟩, ?_⟩
        rw [labels_cons, hsilent]
        exact (List.append_nil _).trans hlog
      · obtain ⟨h, hr, hnow, hlog⟩ := ih (hsame ▸ halive)
        exact ⟨h, hsame ▸ hr, hnow, hlog⟩
      · exact absurd halive (Bool.eq_false_iff.1 hdead)
    · obtain ⟨⟨alarms, events⟩, hwork, heq⟩ := Option.map_eq_some_iff.1 hwork
      obtain ⟨deed, hdeed, rfl, -⟩ := step_of_work hwork
      cases heq
      obtain ⟨h, hr, hnow, hlog⟩ := ih (hdeed.alive_eq ▸ halive)
      refine ⟨_, hr.step hnow hdeed, List.forall_mem_cons.2 ⟨Nat.le_refl _, hnow⟩, ?_⟩
      rw [labels_cons, hlog]
      simp [Simulation.record, Simulation.moment]
    · obtain ⟨h, hr, hnow, hlog⟩ := ih halive
      refine ⟨h, hr, fun e he => Nat.le_trans (hnow e he) ?_, hlog⟩
      exact Nat.mul_le_mul_right _ (Nat.le_add_right _ _)

/-- When all that can be done at a moment is done, the watch is at rest. -/
theorem rest_settle (s : Simulation LabelledAlarms Empty String) :
    s.settle.state.alarms.work s.moment = none := by
  have hless {now : Nat} {state state' : LabelledAlarms} {told : List String}
      (hwork : Primitive.work now state = some (state', told)) :
      state'.alarms.effort now < state.alarms.effort now := by
    obtain ⟨⟨alarms, events⟩, hwork, heq⟩ := Option.map_eq_some_iff.1 hwork
    obtain ⟨-, -, -, heffort⟩ := step_of_work hwork
    cases heq
    exact heffort
  refine Option.map_eq_none_iff.1 (Simulation.rest_settleWithin
    (fun now s => s.alarms.effort now) hless _ s (Nat.lt_succ_of_le ?_))
  exact Nat.le_trans (effort_le _ _) (Nat.le_add_left _ _)

end LabelledAlarms

end ConsensusCore
