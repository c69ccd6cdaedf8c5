import ConsensusCore.Concurrency.Timer
import Mathlib.Data.List.Basic

/-!
# Those who wait on a timer

A wait that begins sleeps, until its time is over or it notices that it has been broken off. After
that it still has to give up its place, and meanwhile others can do anything. A wait that has been
broken off does not have its place any more, and another one may have begun before it notices.

What is done is kept in a history, the latest first. A wait is open if it has begun and has not been
broken off, has not given up its place and was not dropped (`Sleepers.Open`). Its number tells it
from those before it, so the place is that of the open wait, and the end of another one does not
touch it (`Sleepers.Kept`).

* `Sleepers.Run.oneWait`: in every run, at most one wait is open, it is the one that is broken off,
  and no other can begin;
* `Sleepers.not_elapsed_after_span`: a wait can be over before its time, if that is longer than
  thirty years.
-/

namespace ConsensusCore

namespace Timer

/-- What comes of beginning a wait. -/
theorem begin?_cases (t : Timer) :
    (∃ n, t.active = some n ∧ t.begin? = .error .alreadyWaiting) ∨
    t.active = none ∧
      t.begin? = .ok (t.last + 1, { t with last := t.last + 1, active := some (t.last + 1) }) := by
  cases hactive : t.active with
  | some n => exact .inl ⟨n, rfl, by rw [begin?, hactive]⟩
  | none => exact .inr ⟨rfl, by rw [begin?, hactive]⟩

end Timer

/-- A timer and those who wait on it. -/
structure Sleepers where
  timer : Timer
  /-- The waits that have not ended, and when their time is over. -/
  asleep : List (Nat × Nat)
  /-- The waits that have ended and have not given up their places. -/
  leaving : List Nat

namespace Sleepers

/-- A timer that nobody has waited on. -/
def start : Sleepers := ⟨.new, [], []⟩

/-- What is done to a timer. -/
inductive Deed where
  /-- A wait begins, under a number unless it is refused. -/
  | begin (caller : Caller) (span : Duration) (number : Option Nat)
  /-- The wait of a number is broken off, if there is one. -/
  | abort (number : Option Nat)
  /-- The time of a wait is over. -/
  | elapse (number : Nat)
  /-- A wait notices that it has been broken off. -/
  | notice (number : Nat)
  /-- A wait that has ended gives up its place. -/
  | finish (number : Nat)
  /-- A wait is dropped that has not ended. -/
  | drop (number : Nat)

/-- What can be done next. -/
inductive Step (now : Nat) (s : Sleepers) : Deed → Sleepers → Prop
  | begin {number : Nat} {timer : Timer} (caller : Caller) (span : Duration) :
    s.timer.begin? = .ok (number, timer) →
    Step now s (.begin caller span (some number))
      { s with timer, asleep := s.asleep ++ [(number, Moment.wake now span)] }
  | refuse {e : PrimitiveError} (caller : Caller) (span : Duration) : s.timer.begin? = .error e →
    Step now s (.begin caller span none) s
  | abort : Step now s (.abort s.timer.active) { s with timer := s.timer.abort?.getD s.timer }
  | elapse {before after : List (Nat × Nat)} {number deadline : Nat} :
    s.asleep = before ++ (number, deadline) :: after → deadline ≤ now →
    Step now s (.elapse number)
      { s with asleep := before ++ after, leaving := number :: s.leaving }
  | notice {before after : List (Nat × Nat)} {number deadline : Nat} :
    s.asleep = before ++ (number, deadline) :: after → number ∈ s.timer.broken →
    Step now s (.notice number)
      { s with asleep := before ++ after, leaving := number :: s.leaving }
  | finish {before after : List Nat} {number : Nat} : s.leaving = before ++ number :: after →
    Step now s (.finish number)
      { s with timer := s.timer.finish number, leaving := before ++ after }
  | drop {before after : List (Nat × Nat)} {number deadline : Nat} :
    s.asleep = before ++ (number, deadline) :: after →
    Step now s (.drop number)
      { s with timer := s.timer.finish number, asleep := before ++ after }

/-- What has been done, and when, the latest first. -/
abbrev History := List (Nat × Deed)

/-- A timer with its history. The clock does not go back. -/
inductive Run : History → Sleepers → Prop
  | start : Run [] start
  | step {h : History} {s s' : Sleepers} {now : Nat} {d : Deed} : Run h s →
    (∀ e ∈ h, e.1 ≤ now) → Step now s d s' → Run ((now, d) :: h) s'

/-- Something has been done. -/
def Done (h : History) (d : Deed) : Prop := ∃ now, (now, d) ∈ h

/-- A wait has begun. -/
def Begun (h : History) (number : Nat) : Prop :=
  ∃ caller span, Done h (.begin caller span (some number))

/-- A wait has begun, has not been broken off, has not given up its place and was not dropped. -/
structure Open (h : History) (number : Nat) : Prop where
  begun : Begun h number
  not_aborted : ¬Done h (.abort (some number))
  not_finished : ¬Done h (.finish number)
  not_dropped : ¬Done h (.drop number)

/-- What a run of a timer is to be like. -/
structure OneWait (h : History) (s : Sleepers) : Prop where
  /-- No wait begins twice. -/
  once : ∀ later now caller span number earlier,
    h = later ++ (now, .begin caller span (some number)) :: earlier → ¬Begun earlier number
  /-- The place is that of the open wait. -/
  active_iff : ∀ number, s.timer.active = some number ↔ Open h number
  /-- A wait is refused exactly if there is an open one, and then nothing is changed. -/
  refuse_iff : s.timer.begin? = .error .alreadyWaiting ↔ ∃ number, Open h number
  refused : ∀ now caller span number s', Step now s (.begin caller span number) s' →
    (number = none ↔ ∃ other, Open h other) ∧ (number = none → s' = s)
  /-- There is something to break off exactly if there is an open wait, and it is that one. -/
  abort_iff : s.timer.abort?.isSome = true ↔ ∃ number, Open h number
  aborted : ∀ now number s', Step now s (.abort number) s' →
    (∀ n, number = some n ↔ Open h n) ∧ s'.timer.broken = s.timer.broken ++ number.toList
  /-- All that have been broken off can notice it, and they only. -/
  broken_iff : ∀ e ∈ s.asleep, (e.1 ∈ s.timer.broken ↔ Done h (.abort (some e.1)))
  noticed : ∀ later now number earlier, h = later ++ (now, .notice number) :: earlier →
    Done earlier (.abort (some number))
  /-- The time of a wait is not over before it has passed, or thirty years have. -/
  elapsed : ∀ later now number earlier, h = later ++ (now, .elapse number) :: earlier →
    ∃ since caller span, (since, .begin caller span (some number)) ∈ earlier ∧
      since + min span.toNanos Moment.farFuture ≤ now
  /-- The end of a wait that has been broken off is of no concern to others. -/
  undisturbed : ∀ now number s', Done h (.abort (some number)) →
    Step now s (.finish number) s' ∨ Step now s (.drop number) s' →
    s'.timer.active = s.timer.active ∧ ∀ n, n ≠ number → (n ∈ s'.timer.broken ↔ n ∈ s.timer.broken)

/-! ## What each deed keeps -/

variable {h : History} {s s' : Sleepers} {now number : Nat} {d d' : Deed}

theorem done_cons : Done ((now, d) :: h) d' ↔ d' = d ∨ Done h d' := by
  simp [Done, exists_or]

theorem begun_cons :
    Begun ((now, d) :: h) number ↔
      (∃ caller span, .begin caller span (some number) = d) ∨ Begun h number := by
  simp [Begun, done_cons, exists_or]

theorem open_iff : Open h number ↔ Begun h number ∧ ¬Done h (.abort (some number)) ∧
    ¬Done h (.finish number) ∧ ¬Done h (.drop number) :=
  ⟨fun ⟨h₁, h₂, h₃, h₄⟩ => ⟨h₁, h₂, h₃, h₄⟩, fun ⟨h₁, h₂, h₃, h₄⟩ => ⟨h₁, h₂, h₃, h₄⟩⟩

/-- What links a timer, those who wait, and the history. -/
structure Kept (h : History) (s : Sleepers) : Prop where
  begun_le : ∀ n, Begun h n → n ≤ s.timer.last
  known : ∀ n, Done h (.abort (some n)) ∨ Done h (.finish n) ∨ Done h (.drop n) → Begun h n
  active_iff : ∀ n, s.timer.active = some n ↔ Open h n
  since : ∀ e ∈ s.asleep, ∃ since caller span, (since, .begin caller span (some e.1)) ∈ h ∧
    e.2 = Moment.wake since span
  places : (s.asleep.map (·.1) ++ s.leaving).Nodup
  present : ∀ n ∈ s.asleep.map (·.1) ++ s.leaving,
    Begun h n ∧ ¬Done h (.finish n) ∧ ¬Done h (.drop n)
  broken : ∀ n ∈ s.timer.broken, Done h (.abort (some n))
  told : ∀ e ∈ s.asleep, Done h (.abort (some e.1)) → e.1 ∈ s.timer.broken

theorem kept_start : Kept [] start := by
  have hnone : ∀ d, ¬Done [] d := fun d ⟨_, hmem⟩ => absurd hmem List.not_mem_nil
  have hbegun : ∀ n, ¬Begun [] n := fun n ⟨_, _, hdone⟩ => hnone _ hdone
  exact
    { begun_le := fun n hn => absurd hn (hbegun n)
      known := fun n hn => by simp [hnone] at hn
      active_iff := fun n => iff_of_false (by simp [start, Timer.new])
        fun hopen => hbegun n hopen.begun
      since := fun e he => absurd he List.not_mem_nil
      places := List.nodup_nil
      present := fun n hn => absurd hn List.not_mem_nil
      broken := fun n hn => absurd hn List.not_mem_nil
      told := fun e he => absurd he List.not_mem_nil }

namespace Kept

variable (hk : Kept h s)
include hk

/-- Those who sleep have begun, whatever has been done since. -/
theorem since_cons (now : Nat) (d : Deed) : ∀ e ∈ s.asleep, ∃ since caller span,
    (since, .begin caller span (some e.1)) ∈ (now, d) :: h ∧ e.2 = Moment.wake since span := by
  intro e he
  obtain ⟨since, caller, span, hsince, heq⟩ := hk.since e he
  exact ⟨since, caller, span, List.mem_cons_of_mem _ hsince, heq⟩

theorem not_begun {timer : Timer} (hbegin : s.timer.begin? = .ok (number, timer)) :
    ¬Begun h number := by
  rcases s.timer.begin?_cases with ⟨n, -, heq⟩ | ⟨-, heq⟩ <;> cases heq.symm.trans hbegin
  exact fun hbegun => absurd (hk.begun_le _ hbegun) (Nat.not_succ_le_self _)

/-- A wait that begins has a number of its own, and is the only open one. -/
theorem begin {timer : Timer} (caller : Caller) (span : Duration)
    (hbegin : s.timer.begin? = .ok (number, timer)) :
    Kept ((now, .begin caller span (some number)) :: h)
      { s with timer, asleep := s.asleep ++ [(number, Moment.wake now span)] } := by
  have hnew := hk.not_begun hbegin
  rcases s.timer.begin?_cases with ⟨n, -, heq⟩ | ⟨hactive, heq⟩ <;> cases heq.symm.trans hbegin
  have hnone : ∀ n, ¬Open h n := fun n hopen => by
    cases hactive.symm.trans ((hk.active_iff n).2 hopen)
  have hunknown : ¬Done h (.abort (some (s.timer.last + 1))) ∧
      ¬Done h (.finish (s.timer.last + 1)) ∧ ¬Done h (.drop (s.timer.last + 1)) :=
    ⟨fun hdone => hnew (hk.known _ (.inl hdone)),
      fun hdone => hnew (hk.known _ (.inr (.inl hdone))),
      fun hdone => hnew (hk.known _ (.inr (.inr hdone)))⟩
  have hbegun : ∀ n, Begun ((now, .begin caller span (some (s.timer.last + 1))) :: h) n ↔
      n = s.timer.last + 1 ∨ Begun h n := by
    simp [begun_cons]
  have hperm : ((s.asleep ++ [(s.timer.last + 1, Moment.wake now span)]).map (·.1) ++
      s.leaving).Perm ((s.timer.last + 1) :: (s.asleep.map (·.1) ++ s.leaving)) := by
    rw [List.map_append, List.map_singleton, List.append_assoc, List.singleton_append]
    exact List.perm_middle
  refine
    { begun_le := fun n hn => ?_
      known := fun n hn => ?_
      active_iff := fun n => ?_
      since := fun e he => ?_
      places := hperm.nodup_iff.2 (List.nodup_cons.2 ⟨fun hmem => ?_, hk.places⟩)
      present := fun n hn => ?_
      broken := fun n hn => done_cons.2 (.inr (hk.broken n hn))
      told := fun e he hdone => ?_ }
  · rcases (hbegun n).1 hn with rfl | hn
    · exact Nat.le_refl _
    · exact Nat.le_succ_of_le (hk.begun_le n hn)
  · simp only [done_cons, reduceCtorEq, false_or] at hn
    exact (hbegun n).2 (.inr (hk.known n hn))
  · rw [open_iff, hbegun, Option.some_inj]
    simp only [done_cons, reduceCtorEq, false_or]
    constructor
    · rintro rfl
      exact ⟨.inl rfl, hunknown⟩
    · rintro ⟨rfl | hn, hnot⟩
      · rfl
      · exact absurd (open_iff.2 ⟨hn, hnot⟩) (hnone n)
  · rcases List.mem_append.1 he with he | he
    · exact hk.since_cons _ _ e he
    · rw [List.mem_singleton.1 he]
      exact ⟨now, caller, span, List.mem_cons_self, rfl⟩
  · exact hnew (hk.present _ hmem).1
  · rw [hbegun]
    simp only [done_cons, reduceCtorEq, false_or]
    rcases List.mem_cons.1 (hperm.mem_iff.1 hn) with rfl | hn
    · exact ⟨.inl rfl, hunknown.2⟩
    · exact (hk.present n hn).imp_left .inr
  · simp only [done_cons, reduceCtorEq, false_or] at hdone
    rcases List.mem_append.1 he with he | he
    · exact hk.told e he hdone
    · rw [List.mem_singleton.1 he] at hdone
      exact absurd hdone hunknown.1

/-- The open wait is broken off. -/
theorem abort (hactive : s.timer.active = some number) : Kept ((now, .abort (some number)) :: h)
    { s with timer :=
      { s.timer with active := none, broken := s.timer.broken ++ [number] } } := by
  have hopen := (hk.active_iff number).1 hactive
  have hbegun : ∀ n, Begun ((now, .abort (some number)) :: h) n ↔ Begun h n := by
    simp [begun_cons]
  refine
    { begun_le := fun n hn => hk.begun_le n ((hbegun n).1 hn)
      known := fun n hn => ?_
      active_iff := fun n => iff_of_false (by simp) fun hopen' => ?_
      since := hk.since_cons _ _
      places := hk.places
      present := fun n hn => ?_
      broken := fun n hn => done_cons.2 ?_
      told := fun e he hdone => List.mem_append.2 ?_ }
  · rw [hbegun]
    simp only [done_cons, reduceCtorEq, false_or, Deed.abort.injEq, Option.some_inj] at hn
    rcases hn with (rfl | hn) | hn
    · exact hopen.begun
    · exact hk.known n (.inl hn)
    · exact hk.known n (.inr hn)
  · rw [open_iff, hbegun] at hopen'
    simp only [done_cons, reduceCtorEq, false_or, Deed.abort.injEq, Option.some_inj,
      not_or] at hopen'
    obtain ⟨hbegun', ⟨hne, hnot⟩, hnot'⟩ := hopen'
    -- no other wait was open
    have hactive' := (hk.active_iff n).2 (open_iff.2 ⟨hbegun', hnot, hnot'⟩)
    exact hne (Option.some.inj (hactive'.symm.trans hactive))
  · rw [hbegun]
    simp only [done_cons, reduceCtorEq, false_or]
    exact hk.present n hn
  · rcases List.mem_append.1 hn with hn | hn
    · exact .inr (hk.broken n hn)
    · exact .inl (by rw [List.mem_singleton.1 hn])
  · rcases done_cons.1 hdone with heq | hdone
    · cases heq
      exact .inr (List.mem_singleton_self _)
    · exact .inl (hk.told e he hdone)

/-- No wait begins, and none is broken off, gives up its place or is dropped. -/
theorem quiet {asleep : List (Nat × Nat)} {leaving : List Nat}
    (hd : ∀ n, (∀ caller span, .begin caller span (some n) ≠ d) ∧ .abort (some n) ≠ d ∧
      .finish n ≠ d ∧ .drop n ≠ d)
    (hasleep : asleep ⊆ s.asleep)
    (hplaces : (s.asleep.map (·.1) ++ s.leaving).Perm (asleep.map (·.1) ++ leaving)) :
    Kept ((now, d) :: h) { s with asleep, leaving } := by
  have hbegun : ∀ n, Begun ((now, d) :: h) n ↔ Begun h n := fun n =>
    begun_cons.trans (or_iff_right fun ⟨caller, span, heq⟩ => (hd n).1 caller span heq)
  have habort : ∀ n, Done ((now, d) :: h) (.abort (some n)) ↔ Done h (.abort (some n)) := fun n =>
    done_cons.trans (or_iff_right (hd n).2.1)
  have hfinish : ∀ n, Done ((now, d) :: h) (.finish n) ↔ Done h (.finish n) := fun n =>
    done_cons.trans (or_iff_right (hd n).2.2.1)
  have hdrop : ∀ n, Done ((now, d) :: h) (.drop n) ↔ Done h (.drop n) := fun n =>
    done_cons.trans (or_iff_right (hd n).2.2.2)
  refine
    { begun_le := fun n hn => hk.begun_le n ((hbegun n).1 hn)
      known := fun n hn => ?_
      active_iff := fun n => ?_
      since := fun e he => hk.since_cons _ _ e (hasleep he)
      places := hplaces.nodup_iff.1 hk.places
      present := fun n hn => ?_
      broken := fun n hn => (habort n).2 (hk.broken n hn)
      told := fun e he hdone => hk.told e (hasleep he) ((habort _).1 hdone) }
  · rw [habort, hfinish, hdrop] at hn
    exact (hbegun n).2 (hk.known n hn)
  · rw [open_iff, hbegun, habort, hfinish, hdrop, ← open_iff]
    exact hk.active_iff n
  · rw [hbegun, hfinish, hdrop]
    exact hk.present n (hplaces.mem_iff.2 hn)

/-- A wait gives up its place, or is dropped. -/
theorem gone {asleep : List (Nat × Nat)} {leaving : List Nat}
    (hd : d = .finish number ∨ d = .drop number) (hasleep : asleep ⊆ s.asleep)
    (hplaces : (s.asleep.map (·.1) ++ s.leaving).Perm (number :: (asleep.map (·.1) ++ leaving))) :
    Kept ((now, d) :: h) { s with timer := s.timer.finish number, asleep, leaving } := by
  obtain ⟨hnotin, hnodup⟩ := List.nodup_cons.1 (hplaces.nodup_iff.1 hk.places)
  have hthere : number ∈ s.asleep.map (·.1) ++ s.leaving :=
    hplaces.mem_iff.2 List.mem_cons_self
  have hbegun : ∀ n, Begun ((now, d) :: h) n ↔ Begun h n := fun n => by
    rcases hd with rfl | rfl <;> simp [begun_cons]
  have habort : ∀ n, Done ((now, d) :: h) (.abort (some n)) ↔ Done h (.abort (some n)) := by
    rcases hd with rfl | rfl <;> simp [done_cons]
  have hover : ∀ n, Done ((now, d) :: h) (.finish n) ∨ Done ((now, d) :: h) (.drop n) ↔
      n = number ∨ Done h (.finish n) ∨ Done h (.drop n) := fun n => by
    rcases hd with rfl | rfl <;> simp [done_cons, or_assoc, or_left_comm]
  refine
    { begun_le := fun n hn => hk.begun_le n ((hbegun n).1 hn)
      known := fun n hn => ?_
      active_iff := fun n => ?_
      since := fun e he => hk.since_cons _ _ e (hasleep he)
      places := hnodup
      present := fun n hn => ?_
      broken := fun n hn => (habort n).2 (hk.broken n (List.mem_of_mem_erase hn))
      told := fun e he hdone => ?_ }
  · rw [habort, hover] at hn
    rw [hbegun]
    rcases hn with hn | rfl | hn
    · exact hk.known n (.inl hn)
    · exact (hk.present _ hthere).1
    · exact hk.known n (.inr hn)
  · rw [open_iff, hbegun, habort, ← not_or, hover, not_or, not_or]
    simp only [Timer.finish]
    constructor
    · intro hactive
      split at hactive
      next => cases hactive
      next hne =>
        refine ((open_iff.1 ((hk.active_iff n).1 hactive))).imp_right (And.imp_right fun hnot =>
          ⟨?_, hnot⟩)
        rintro rfl
        exact hne hactive
    · rintro ⟨hbegun', hnot, hne, hnot'⟩
      have hactive := (hk.active_iff n).2 (open_iff.2 ⟨hbegun', hnot, hnot'⟩)
      rw [if_neg fun heq => hne (Option.some.inj (hactive.symm.trans heq)), hactive]
  · rw [hbegun, ← not_or, hover, not_or, not_or]
    refine (hk.present n (hplaces.mem_iff.2 (List.mem_cons_of_mem _ hn))).imp_right fun hnot =>
      ⟨?_, hnot⟩
    rintro rfl
    exact hnotin hn
  · have hne : e.1 ≠ number := by
      rintro rfl
      exact hnotin (List.mem_append_left _ (List.mem_map_of_mem he))
    exact (List.mem_erase_of_ne hne).2 (hk.told e (hasleep he) ((habort _).1 hdone))

end Kept

/-- Those who wait and those who have ended, with one told apart. -/
theorem perm_places (before after : List (Nat × Nat)) (number deadline : Nat)
    (leaving : List Nat) : ((before ++ (number, deadline) :: after).map (·.1) ++ leaving).Perm
      (number :: ((before ++ after).map (·.1) ++ leaving)) := by
  rw [List.map_append, List.map_cons, List.map_append, List.append_assoc, List.append_assoc]
  exact List.perm_middle

theorem subset_of_split {before after : List (Nat × Nat)} {e : Nat × Nat}
    (hsplit : s.asleep = before ++ e :: after) : before ++ after ⊆ s.asleep :=
  hsplit ▸ ((List.sublist_cons_self e after).append_left before).subset

theorem Step.kept (hstep : Step now s d s') (hk : Kept h s) : Kept ((now, d) :: h) s' := by
  cases hstep with
  | begin caller span hbegin => exact hk.begin caller span hbegin
  | refuse => exact hk.quiet (by simp) (List.Subset.refl _) (.refl _)
  | abort =>
    cases hactive : s.timer.active with
    | some n =>
      rw [Timer.abort?, hactive]
      exact hk.abort hactive
    | none =>
      rw [Timer.abort?, hactive]
      exact hk.quiet (by simp) (List.Subset.refl _) (.refl _)
  | elapse hsplit | notice hsplit =>
    refine hk.quiet (by simp) (subset_of_split hsplit) ?_
    rw [hsplit]
    exact (perm_places ..).trans List.perm_middle.symm
  | finish hsplit =>
    refine hk.gone (.inl rfl) (List.Subset.refl _) ?_
    rw [hsplit, ← List.append_assoc, ← List.append_assoc]
    exact List.perm_middle
  | drop hsplit =>
    refine hk.gone (.inr rfl) (subset_of_split hsplit) ?_
    rw [hsplit]
    exact perm_places ..

/-! ## Runs -/

theorem Run.kept (hrun : Run h s) : Kept h s := by
  induction hrun with
  | start => exact kept_start
  | step _ _ hstep ih => exact hstep.kept ih

/-- Whatever has been done was done at some time of a run. -/
theorem Run.split {later earlier : History} (hrun : Run (later ++ (now, d) :: earlier) s) :
    ∃ s₁ s₂, Run earlier s₁ ∧ Step now s₁ d s₂ := by
  induction later generalizing s with
  | nil =>
    cases hrun with
    | step hrun _ hstep => exact ⟨_, _, hrun, hstep⟩
  | cons e later ih =>
    cases hrun with
    | step hrun => exact ih hrun

/-- In every run, at most one wait is open, it is the one that is broken off, and no other can
    begin. What becomes of those that have been broken off is of no concern to it. -/
theorem Run.oneWait (hrun : Run h s) : OneWait h s where
  once := by
    rintro later now caller span number earlier rfl
    obtain ⟨s₁, s₂, hearlier, hstep⟩ := hrun.split
    cases hstep with
    | begin _ _ hbegin => exact hearlier.kept.not_begun hbegin
  active_iff := hrun.kept.active_iff
  refuse_iff := by
    simp only [← hrun.kept.active_iff]
    rcases s.timer.begin?_cases with ⟨n, hsome, heq⟩ | ⟨hnone, heq⟩
    · exact iff_of_true heq ⟨n, hsome⟩
    · simp [heq, hnone]
  refused := by
    intro now caller span number s' hstep
    simp only [← hrun.kept.active_iff]
    cases hstep with
    | begin _ _ hbegin =>
      rcases s.timer.begin?_cases with ⟨n, -, heq⟩ | ⟨hnone, -⟩
      · cases heq.symm.trans hbegin
      · simp [hnone]
    | refuse _ _ hbegin =>
      rcases s.timer.begin?_cases with ⟨n, hsome, -⟩ | ⟨-, heq⟩
      · exact ⟨iff_of_true rfl ⟨n, hsome⟩, fun _ => rfl⟩
      · cases heq.symm.trans hbegin
  abort_iff := by
    simp only [Timer.abort?, Option.isSome_map, Option.isSome_iff_exists, hrun.kept.active_iff]
  aborted := by
    intro now number s' hstep
    cases hstep with
    | abort =>
      refine ⟨hrun.kept.active_iff, ?_⟩
      cases hactive : s.timer.active <;> simp [Timer.abort?, hactive]
  broken_iff := fun e he => ⟨hrun.kept.broken _, hrun.kept.told e he⟩
  noticed := by
    rintro later now number earlier rfl
    obtain ⟨s₁, s₂, hearlier, hstep⟩ := hrun.split
    cases hstep with
    | notice _ hbroken => exact hearlier.kept.broken _ hbroken
  elapsed := by
    rintro later now number earlier rfl
    obtain ⟨s₁, s₂, hearlier, hstep⟩ := hrun.split
    cases hstep with
    | elapse hsplit hle =>
      obtain ⟨since, caller, span, hbegun, heq⟩ :=
        hearlier.kept.since _ (hsplit ▸ List.mem_append_right _ List.mem_cons_self)
      exact ⟨since, caller, span, hbegun, Nat.le_trans (Nat.le_of_eq heq.symm) hle⟩
  undisturbed := by
    intro now number s' habort hstep
    have hne : s.timer.active ≠ some number := fun hactive =>
      ((hrun.kept.active_iff number).1 hactive).not_aborted habort
    have hfinish : s'.timer = s.timer.finish number := by
      rcases hstep with hstep | hstep <;> cases hstep <;> rfl
    rw [hfinish]
    exact ⟨if_neg hne, fun n hn => List.mem_erase_of_ne hn⟩

/-- A wait is broken off, and another one begins before the first has noticed. -/
def overlap : History :=
  [(20, .finish 1), (10, .notice 1), (10, .begin ⟨"b", 1⟩ (.ofMillis 5) (some 2)),
    (5, .abort (some 1)), (0, .begin ⟨"a", 0⟩ (.ofMillis 5) (some 1))]

theorem oneWait_overlap : Run overlap ⟨⟨2, some 2, []⟩, [(2, Moment.wake 10 (.ofMillis 5))], []⟩ ∧
    OneWait overlap ⟨⟨2, some 2, []⟩, [(2, Moment.wake 10 (.ofMillis 5))], []⟩ := by
  have hbegin : Run ((0, _) :: _) ⟨⟨1, some 1, []⟩, [(1, Moment.wake 0 (.ofMillis 5))], []⟩ :=
    .step .start (by simp) (.begin ⟨"a", 0⟩ (.ofMillis 5) rfl)
  have habort : Run ((5, .abort (some 1)) :: _)
      ⟨⟨1, none, [1]⟩, [(1, Moment.wake 0 (.ofMillis 5))], []⟩ := hbegin.step (by simp) .abort
  have hnext : Run ((10, .begin _ _ (some 2)) :: _) ⟨⟨2, some 2, [1]⟩,
      [(1, Moment.wake 0 (.ofMillis 5)), (2, Moment.wake 10 (.ofMillis 5))], []⟩ :=
    habort.step (by simp) (.begin ⟨"b", 1⟩ (.ofMillis 5) rfl)
  have hnotice : Run ((10, .notice 1) :: _) _ :=
    hnext.step (by simp) (.notice (List.nil_append _).symm (List.mem_singleton_self _))
  have hfinish : Run ((20, .finish 1) :: _) _ :=
    hnotice.step (by simp) (.finish (List.nil_append _).symm)
  exact ⟨hfinish, hfinish.oneWait⟩

/-- A second more than thirty years. -/
def tooLong : Duration := ⟨946080001, 0, by decide⟩

/-- A wait for longer than thirty years is over after thirty years. -/
theorem not_elapsed_after_span : ¬∀ h s, Run h s → ∀ later now number earlier,
    h = later ++ (now, .elapse number) :: earlier →
    ∃ since caller span, (since, .begin caller span (some number)) ∈ earlier ∧
      since + span.toNanos ≤ now := by
  intro helapsed
  have hbegin : Run ((0, _) :: _) ⟨⟨1, some 1, []⟩, [(1, Moment.wake 0 tooLong)], []⟩ :=
    .step .start (by simp) (.begin ⟨"w", 0⟩ tooLong rfl)
  have hover : Moment.wake 0 tooLong ≤ Moment.farFuture := by decide
  have hrun : Run ((Moment.farFuture, .elapse 1) :: _) _ :=
    hbegin.step (by simp) (.elapse (List.nil_append _).symm hover)
  obtain ⟨since, caller, span, hmem, hle⟩ := helapsed _ _ hrun [] _ _ _ rfl
  cases List.mem_singleton.1 hmem
  revert hle
  decide

end Sleepers

end ConsensusCore
