import ConsensusCore.Proofs.Concurrency.Simulation
import ConsensusCore.Timeout.Ticker

/-!
# Runs of the ticker

What happens to a ticker is kept in a history, the latest first: what was done to it, which
requests it looked at, what it delivered, and when. A request that is there when the time
of the pending timeout is over may be looked at before or after the delivery (`Step`).

What was accepted is read off the history alone: the requests that were, when the ticker
looked at them, ahead of all those accepted before.

* `Run.singleFlight`: in every run, accepted timeouts are delivered in the order of their
  positions, each at its time and at most once, unless they are superseded before;
* `exists_run`: whatever callers do, and whenever, is among the runs;
* `rest_settle`: the ticker comes to rest.
-/

namespace ConsensusCore.Ticker

/-- What happens to a ticker. -/
inductive Deed where
  | act (a : Action)
  /-- The ticker looks at a request. -/
  | look (t : Timeout)
  | deliver (t : Timeout)
  /-- A ticker that is to stop comes to its end. -/
  | close

/-- What can happen next. -/
inductive Step (now : Nat) (k : Ticker) : Deed → Ticker → Prop
  | act (a : Action) : Step now k (.act a) (k.act a)
  | look {t : Timeout} {inbox : List Timeout} : k.running = true → k.stopping = false →
    k.inbox = t :: inbox → Step now k (.look t) ({ k with inbox }.accept now t)
  | deliver {t : Timeout} {k' : Ticker} : k.running = true → k.stopping = false →
    k.fire? now = some (t, k') → Step now k (.deliver t) k'
  | close : k.running = true → k.stopping = true →
    Step now k .close { k with running := false, inbox := [], pending := none }

/-- What has happened, and when, the latest first. -/
abbrev History := List (Nat × Deed)

/-- A ticker with its history. The clock does not go back. -/
inductive Run : History → Ticker → Prop
  | start : Run [] .start
  | step {h : History} {k k' : Ticker} {now : Nat} {deed : Deed} : Run h k →
    (∀ e ∈ h, e.1 ≤ now) → Step now k deed k' → Run ((now, deed) :: h) k'

/-! ## What a history tells -/

/-- The timeouts that were scheduled, the latest first. -/
def scheduled : History → List Timeout
  | [] => []
  | (_, .act (.schedule t)) :: h => t :: scheduled h
  | _ :: h => scheduled h

/-- The timeouts that were accepted, and when, the latest first. -/
def accepted : History → List (Nat × Timeout)
  | [] => []
  | (now, .look t) :: h =>
    if ∀ a ∈ accepted h, a.2.roundStep < t.roundStep then (now, t) :: accepted h else accepted h
  | _ :: h => accepted h

/-- The timeouts that were delivered, and when, the latest first. -/
def delivered : History → List (Nat × Timeout)
  | [] => []
  | (now, .deliver t) :: h => (now, t) :: delivered h
  | _ :: h => delivered h

/-- The ticker has been told to stop. -/
def Stopped (h : History) : Prop := ∃ e ∈ h, e.2 = .act .stop ∨ e.2 = .act .drop

/-- When the time of an accepted timeout is over: after its duration, or after 365 days
    if that is less. -/
def deadline (a : Nat × Timeout) : Nat :=
  a.1 + min a.2.duration.toNanos (365 * 86400 * nanosPerSecond)

/-- After a timeout was accepted, and before it was delivered, one ahead of it was. -/
def Superseded (h : History) (a : Nat × Timeout) : Prop :=
  ∃ now t h₁, (now, .look t) :: h₁ <:+ h ∧ a ∈ accepted h₁ ∧ a.2 ∉ (delivered h₁).map (·.2) ∧
    ∀ b ∈ accepted h₁, b.2.roundStep < t.roundStep

/-- What a run of the ticker is to be like. -/
structure SingleFlight (h : History) (k : Ticker) : Prop where
  /-- Deliveries are in the order of positions. -/
  increasing : (delivered h).Pairwise fun later earlier => earlier.2.roundStep < later.2.roundStep
  /-- What is accepted was scheduled. -/
  accepted_of_scheduled : ((accepted h).map (·.2)).Sublist (scheduled h)
  /-- What is delivered was accepted, is delivered at most once, and not before its time. -/
  delivered_of_accepted : ∃ l, l.Sublist (accepted h) ∧
    List.Forall₂ (fun a d => d.2 = a.2 ∧ deadline a ≤ d.1) l (delivered h)
  /-- A request that is ahead takes the place of the pending one. -/
  replaced : ∀ now t k', Step now k (.look t) k' →
    (∀ a ∈ accepted h, a.2.roundStep < t.roundStep) → k'.pending = some (t, deadline (now, t))
  /-- One that is not leaves what is pending as it is. -/
  untouched : ∀ now t k', Step now k (.look t) k' →
    (∃ a ∈ accepted h, ¬a.2.roundStep < t.roundStep) → k'.pending = k.pending
  /-- One that was not is never delivered. -/
  stale : ∀ now t h₁, (now, .look t) :: h₁ <:+ h →
    (∃ a ∈ accepted h₁, ¬a.2.roundStep < t.roundStep) → t ∉ (accepted h₁).map (·.2) →
    t ∉ (delivered h).map (·.2)
  /-- At rest, everything is delivered whose time is over and that was not superseded. -/
  punctual : ∀ now, k.work now = none → ¬Stopped h → ∀ a ∈ accepted h, deadline a ≤ now →
    a.2 ∈ (delivered h).map (·.2) ∨ Superseded h a
  /-- What is superseded is not delivered. -/
  superseded : ∀ a, Superseded h a → a.2 ∉ (delivered h).map (·.2)
  /-- After a stop nothing is delivered. -/
  silent : ∀ h₁, h₁ <:+ h → Stopped h₁ → delivered h = delivered h₁

variable {h h₁ : History} {k k' : Ticker} {now : Nat} {t : Timeout} {a : Nat × Timeout}
  {deed : Deed}

theorem accepted_look_of_ahead (hahead : ∀ a ∈ accepted h, a.2.roundStep < t.roundStep) :
    accepted ((now, .look t) :: h) = (now, t) :: accepted h :=
  if_pos hahead

theorem accepted_look_of_stale (hstale : ¬∀ a ∈ accepted h, a.2.roundStep < t.roundStep) :
    accepted ((now, .look t) :: h) = accepted h :=
  if_neg hstale

/-- Only looking at a request adds to what was accepted. -/
theorem accepted_cons (e : Nat × Deed) (h : History) : accepted h <:+ accepted (e :: h) := by
  obtain ⟨now, deed⟩ := e
  rcases deed with a | t | t | _
  · exact List.suffix_rfl
  · by_cases hahead : ∀ a ∈ accepted h, a.2.roundStep < t.roundStep
    · rw [accepted_look_of_ahead hahead]
      exact List.suffix_cons _ _
    · exact ⟨[], (accepted_look_of_stale hahead).symm⟩
  · exact List.suffix_rfl
  · exact List.suffix_rfl

theorem accepted_suffix (hsuffix : h₁ <:+ h) : accepted h₁ <:+ accepted h := by
  induction h with
  | nil =>
    obtain rfl := List.suffix_nil.1 hsuffix
    exact List.suffix_rfl
  | cons e h ih =>
    rcases List.suffix_cons_iff.1 hsuffix with rfl | hsuffix
    · exact List.suffix_rfl
    · exact (ih hsuffix).trans (accepted_cons e h)

/-- What is accepted is ahead of what was accepted before. -/
theorem accepted_increasing (h : History) :
    (accepted h).Pairwise fun later earlier => earlier.2.roundStep < later.2.roundStep := by
  induction h with
  | nil => exact .nil
  | cons e h ih =>
    obtain ⟨now, deed⟩ := e
    rcases deed with a | t | t | _
    · exact ih
    · by_cases hahead : ∀ a ∈ accepted h, a.2.roundStep < t.roundStep
      · rw [accepted_look_of_ahead hahead]
        exact List.pairwise_cons.2 ⟨hahead, ih⟩
      · rw [accepted_look_of_stale hahead]
        exact ih
    · exact ih
    · exact ih

theorem delivered_cons_of_ne (hdeed : ∀ t, deed ≠ .deliver t) :
    delivered ((now, deed) :: h) = delivered h := by
  rcases deed with a | t | t | _
  · rfl
  · rfl
  · exact absurd rfl (hdeed t)
  · rfl

theorem map_delivered {l ds : List (Nat × Timeout)}
    (hd : List.Forall₂ (fun a d => d.2 = a.2 ∧ deadline a ≤ d.1) l ds) :
    ds.map (·.2) = l.map (·.2) := by
  induction hd with
  | nil => rfl
  | cons had _ ih => rw [List.map_cons, List.map_cons, ih, had.1]

theorem stopped_cons (hdeed : deed ≠ .act .stop ∧ deed ≠ .act .drop) :
    Stopped ((now, deed) :: h) ↔ Stopped h := by
  simp only [Stopped, List.mem_cons, exists_eq_or_imp, hdeed.1, hdeed.2, or_self, false_or]

theorem Superseded.cons (hs : Superseded h a) (e : Nat × Deed) : Superseded (e :: h) a := by
  obtain ⟨now, t, h₁, hsuffix, hrest⟩ := hs
  exact ⟨now, t, h₁, hsuffix.trans (List.suffix_cons _ _), hrest⟩

/-- A timeout is superseded by looking at another. -/
theorem Superseded.of_cons (hs : Superseded ((now, deed) :: h) a) :
    Superseded h a ∨ ∃ t, deed = .look t ∧ a.2 ∉ (delivered h).map (·.2) := by
  obtain ⟨now', t, h₁, hsuffix, ha, hd, hahead⟩ := hs
  rcases List.suffix_cons_iff.1 hsuffix with heq | hsuffix
  · cases heq
    exact .inr ⟨t, rfl, hd⟩
  · exact .inl ⟨now', t, h₁, hsuffix, ha, hd, hahead⟩

/-- What supersedes a timeout was accepted. -/
theorem Superseded.exists_ahead (hs : Superseded h a) :
    ∃ b ∈ accepted h, a.2.roundStep < b.2.roundStep := by
  obtain ⟨now, t, h₁, hsuffix, ha, -, hahead⟩ := hs
  refine ⟨(now, t), (accepted_suffix hsuffix).subset ?_, hahead a ha⟩
  rw [accepted_look_of_ahead hahead]
  exact List.mem_cons_self

theorem fire?_eq_some : k.fire? now = some (t, k') ↔
    ∃ d, k.pending = some (t, d) ∧ d ≤ now ∧ k' = { k with pending := none } := by
  constructor
  · intro hfire
    simp only [fire?] at hfire
    split at hfire
    next t' d hp =>
      split at hfire
      next hle =>
        cases hfire
        exact ⟨d, hp, hle, rfl⟩
      next => cases hfire
    next => cases hfire
  · rintro ⟨d, hp, hle, rfl⟩
    simp only [fire?, hp]
    exact if_pos hle

/-! ## What each deed keeps -/

/-- What links a ticker and its history. -/
structure Kept (h : History) (k : Ticker) : Prop where
  latest : k.latest = (accepted h).head?.map (·.2.roundStep)
  requests : (k.inbox.reverse ++ (accepted h).map (·.2)).Sublist (scheduled h)
  /-- What is pending was accepted last. Before it come those that have been delivered. -/
  flight : ∃ pending before l, accepted h = pending ++ before ∧ l.Sublist before ∧
    List.Forall₂ (fun a d => d.2 = a.2 ∧ deadline a ≤ d.1) l (delivered h) ∧
    pending.map (fun a => (a.2, deadline a)) = k.pending.toList
  fate : k.stopping = false → ∀ a ∈ accepted h,
    a.2 ∈ (delivered h).map (·.2) ∨ Superseded h a ∨ k.pending = some (a.2, deadline a)
  undelivered : ∀ a, Superseded h a → a.2 ∉ (delivered h).map (·.2)
  stopping : k.stopping = true ↔ Stopped h
  running : k.stopping = false → k.running = true

theorem kept_start : Kept [] start := by
  refine ⟨rfl, List.nil_sublist _, ⟨[], [], [], rfl, List.nil_sublist _, .nil, rfl⟩,
    fun _ a ha => absurd ha List.not_mem_nil, fun a _ => List.not_mem_nil, ?_, fun _ => rfl⟩
  refine ⟨fun hs => Bool.noConfusion hs, ?_⟩
  rintro ⟨e, he, -⟩
  exact absurd he List.not_mem_nil

theorem deadline_eq (now : Nat) (t : Timeout) : deadline (now, t) = Moment.after now (span t) := by
  have hmax : maxSpan.toNanos = 365 * 86400 * nanosPerSecond := by decide
  simp only [deadline, Moment.after, span, hmax]
  split
  next hle => rw [Nat.min_eq_left hle]
  next hle => rw [hmax, Nat.min_eq_right (Nat.le_of_not_le hle)]

namespace Kept

variable (hk : Kept h k)
include hk

theorem ahead_iff (t : Timeout) :
    k.ahead t = true ↔ ∀ a ∈ accepted h, a.2.roundStep < t.roundStep := by
  have hincreasing := accepted_increasing h
  simp only [ahead, hk.latest]
  cases hl : accepted h with
  | nil => simp
  | cons a l =>
    rw [hl, List.pairwise_cons] at hincreasing
    simp only [List.head?_cons, Option.map_some, decide_eq_true_eq, List.forall_mem_cons]
    exact ⟨fun hat => ⟨hat, fun b hb => RoundStep.lt_trans (hincreasing.1 b hb) hat⟩, And.left⟩

/-- What a deed supersedes has not been delivered before. -/
theorem undelivered_cons (a : Nat × Timeout) (hs : Superseded ((now, deed) :: h) a) :
    a.2 ∉ (delivered h).map (·.2) := by
  rcases hs.of_cons with hs | ⟨-, -, hd⟩
  · exact hk.undelivered a hs
  · exact hd

theorem fate_cons (now : Nat) (deed : Deed) (hstopping : k.stopping = false) (a : Nat × Timeout)
    (ha : a ∈ accepted h) : a.2 ∈ (delivered h).map (·.2) ∨ Superseded ((now, deed) :: h) a ∨
      k.pending = some (a.2, deadline a) :=
  (hk.fate hstopping a ha).imp_right (Or.imp_left fun hs => hs.cons _)

theorem act (now : Nat) (a : Action) : Kept ((now, .act a) :: h) (k.act a) := by
  have hstop : Stopped ((now, .act .stop) :: h) := ⟨_, List.mem_cons_self, .inl rfl⟩
  have hdrop : Stopped ((now, .act .drop) :: h) := ⟨_, List.mem_cons_self, .inr rfl⟩
  rcases a with t | _ | _
  · have hstopped : Stopped ((now, .act (.schedule t)) :: h) ↔ Stopped h :=
      stopped_cons ⟨by simp, by simp⟩
    simp only [Ticker.act, schedule]
    split
    · refine ⟨hk.latest, ?_, hk.flight, hk.fate_cons _ _, hk.undelivered_cons,
        hk.stopping.trans hstopped.symm, hk.running⟩
      rw [List.reverse_append]
      exact hk.requests.cons_cons t
    · exact ⟨hk.latest, hk.requests.cons t, hk.flight, hk.fate_cons _ _, hk.undelivered_cons,
        hk.stopping.trans hstopped.symm, hk.running⟩
  · exact ⟨hk.latest, hk.requests, hk.flight, fun hs => Bool.noConfusion hs, hk.undelivered_cons,
      iff_of_true rfl hstop, fun hs => Bool.noConfusion hs⟩
  · exact ⟨hk.latest, hk.requests, hk.flight, fun hs => Bool.noConfusion hs, hk.undelivered_cons,
      iff_of_true rfl hdrop, fun hs => Bool.noConfusion hs⟩

/-- What is pending was accepted last. -/
theorem pending_eq {d : Nat} (hp : k.pending = some (t, d)) :
    ∃ b before l, b.2 = t ∧ deadline b = d ∧ accepted h = b :: before ∧ l.Sublist before ∧
      List.Forall₂ (fun a d => d.2 = a.2 ∧ deadline a ≤ d.1) l (delivered h) := by
  obtain ⟨pending, before, l, hacc, hl, hd, hmap⟩ := hk.flight
  rw [hp, Option.toList_some, List.map_eq_singleton_iff] at hmap
  obtain ⟨b, rfl, hb⟩ := hmap
  cases hb
  exact ⟨b, before, l, rfl, rfl, hacc, hl, hd⟩

/-- What is pending has not been delivered. -/
theorem not_delivered {d : Nat} (hp : k.pending = some (t, d)) :
    t ∉ (delivered h).map (·.2) := by
  obtain ⟨b, before, l, rfl, -, hacc, hl, hd⟩ := hk.pending_eq hp
  rw [map_delivered hd]
  intro hmem
  obtain ⟨c, hc, hcb⟩ := List.mem_map.1 hmem
  have hincreasing := accepted_increasing h
  rw [hacc, List.pairwise_cons] at hincreasing
  have hlt := hincreasing.1 c (hl.subset hc)
  rw [hcb] at hlt
  exact RoundStep.lt_irrefl _ hlt

/-- What is pending has not been superseded. -/
theorem not_superseded {d : Nat} (hp : k.pending = some (t, d)) (hs : Superseded h a) :
    a.2 ≠ t := by
  rintro rfl
  obtain ⟨b, before, l, hb, -, hacc, -, -⟩ := hk.pending_eq hp
  obtain ⟨c, hc, hac⟩ := hs.exists_ahead
  have hincreasing := accepted_increasing h
  rw [hacc, List.pairwise_cons] at hincreasing
  rw [← hb] at hac
  rw [hacc, List.mem_cons] at hc
  rcases hc with rfl | hc
  · exact RoundStep.lt_irrefl _ hac
  · exact RoundStep.lt_irrefl _ (RoundStep.lt_trans hac (hincreasing.1 c hc))

theorem look {inbox : List Timeout} (hinbox : k.inbox = t :: inbox) (now : Nat) :
    Kept ((now, .look t) :: h) ({ k with inbox }.accept now t) := by
  have hstopped : Stopped ((now, .look t) :: h) ↔ Stopped h := stopped_cons ⟨nofun, nofun⟩
  have hrequests := hk.requests
  rw [hinbox, List.reverse_cons, List.append_assoc, List.singleton_append] at hrequests
  have hahead : ({ k with inbox } : Ticker).ahead t = true ↔ _ := hk.ahead_iff t
  simp only [accept]
  split
  next hnew =>
    rw [hahead] at hnew
    have hacc : accepted ((now, .look t) :: h) = _ := accepted_look_of_ahead hnew
    obtain ⟨pending, before, l, heq, hl, hd, -⟩ := hk.flight
    refine ⟨by rw [hacc]; rfl, by rw [hacc]; exact hrequests,
      ⟨[(now, t)], accepted h, l, hacc, ?_, hd, by simp [deadline_eq]⟩, fun hstopping b hb => ?_,
      hk.undelivered_cons, hk.stopping.trans hstopped.symm, hk.running⟩
    · rw [heq]
      exact hl.trans (List.sublist_append_right _ _)
    · rw [hacc, List.mem_cons] at hb
      rcases hb with rfl | hb
      · exact .inr (.inr (by rw [deadline_eq]))
      · rcases hk.fate hstopping b hb with hdel | hs | hp
        · exact .inl hdel
        · exact .inr (.inl (hs.cons _))
        -- the one that was pending until now is superseded
        · exact .inr (.inl ⟨now, t, h, List.suffix_rfl, hb, hk.not_delivered hp, hnew⟩)
  next hold =>
    rw [hahead] at hold
    have hacc : accepted ((now, .look t) :: h) = _ := accepted_look_of_stale hold
    refine ⟨hacc ▸ hk.latest, ?_, hacc ▸ hk.flight, fun hstopping b hb => ?_,
      hk.undelivered_cons, hk.stopping.trans hstopped.symm, hk.running⟩
    · rw [hacc]
      exact ((List.sublist_cons_self t _).append_left _).trans hrequests
    · rw [hacc] at hb
      exact hk.fate_cons _ _ hstopping b hb

theorem deliver (hfire : k.fire? now = some (t, k')) : Kept ((now, .deliver t) :: h) k' := by
  obtain ⟨d, hp, hle, rfl⟩ := fire?_eq_some.1 hfire
  obtain ⟨b, before, l, rfl, rfl, hacc, hl, hd⟩ := hk.pending_eq hp
  have hstopped : Stopped ((now, .deliver b.2) :: h) ↔ Stopped h := stopped_cons ⟨nofun, nofun⟩
  refine ⟨hk.latest, hk.requests, ⟨[], b :: before, b :: l, hacc, hl.cons_cons b,
    .cons ⟨rfl, hle⟩ hd, rfl⟩, fun hstopping a ha => ?_, fun a hs => ?_,
    hk.stopping.trans hstopped.symm, hk.running⟩
  · rcases hk.fate hstopping a ha with hdel | hs | hpa
    · exact .inl (List.mem_cons_of_mem _ hdel)
    · exact .inr (.inl (hs.cons _))
    · rw [hp, Option.some.injEq, Prod.mk.injEq] at hpa
      exact .inl (hpa.1 ▸ List.mem_cons_self)
  · rcases hs.of_cons with hs | ⟨t, hlook, -⟩
    · exact List.not_mem_cons_of_ne_of_not_mem (hk.not_superseded hp hs) (hk.undelivered a hs)
    · cases hlook

theorem close (hstopping : k.stopping = true) (now : Nat) :
    Kept ((now, .close) :: h) { k with running := false, inbox := [], pending := none } := by
  have hstopped : Stopped ((now, .close) :: h) ↔ Stopped h := stopped_cons ⟨nofun, nofun⟩
  obtain ⟨pending, before, l, heq, hl, hd, -⟩ := hk.flight
  refine ⟨hk.latest, (List.sublist_append_right _ _).trans hk.requests,
    ⟨[], accepted h, l, rfl, ?_, hd, rfl⟩, fun hs => ?_, hk.undelivered_cons,
    hk.stopping.trans hstopped.symm, fun hs => ?_⟩
  · rw [heq]
    exact hl.trans (List.sublist_append_right _ _)
  · exact absurd hstopping (by rw [hs]; exact Bool.false_ne_true)
  · exact absurd hstopping (by rw [hs]; exact Bool.false_ne_true)

theorem step (hstep : Step now k deed k') : Kept ((now, deed) :: h) k' := by
  cases hstep with
  | act a => exact hk.act now a
  | look _ _ hinbox => exact hk.look hinbox now
  | deliver _ _ hfire => exact hk.deliver hfire
  | close _ hstopping => exact hk.close hstopping now

end Kept

/-! ## Whole runs -/

namespace Run

theorem kept (hr : Run h k) : Kept h k := by
  induction hr with
  | start => exact kept_start
  | step _ _ hstep ih => exact ih.step hstep

/-- Once the ticker has been told to stop, nothing is added to what was delivered. -/
theorem delivered_of_stopped (hr : Run h k) (hsuffix : h₁ <:+ h) (hstopped : Stopped h₁) :
    delivered h = delivered h₁ := by
  induction hr with
  | start => rw [List.suffix_nil.1 hsuffix]
  | @step h k k' now deed hr _ hstep ih =>
    rcases List.suffix_cons_iff.1 hsuffix with rfl | hsuffix
    · rfl
    · obtain ⟨e, he, hdeed⟩ := hstopped
      have hstopping := hr.kept.stopping.2 ⟨e, hsuffix.subset he, hdeed⟩
      rw [← ih hsuffix, delivered_cons_of_ne]
      rintro t rfl
      cases hstep with
      | deliver _ hnot _ => exact Bool.false_ne_true (hnot.symm.trans hstopping)

/-- A request that was not accepted is not delivered later on. -/
theorem stale_not_delivered (hr : Run h k) (hsuffix : (now, .look t) :: h₁ <:+ h)
    (hstale : ∃ a ∈ accepted h₁, ¬a.2.roundStep < t.roundStep) (ht : t ∉ (accepted h₁).map (·.2)) :
    t ∉ (delivered h).map (·.2) := by
  obtain ⟨pending, before, l, hacc, hl, hd, -⟩ := hr.kept.flight
  obtain ⟨a, ha, hat⟩ := hstale
  intro hmem
  rw [map_delivered hd] at hmem
  obtain ⟨c, hc, rfl⟩ := List.mem_map.1 hmem
  have hincreasing := accepted_increasing h
  obtain ⟨later, hlater⟩ := accepted_suffix ((List.suffix_cons _ _).trans hsuffix)
  have hcmem : c ∈ later ++ accepted h₁ := by
    rw [hlater, hacc]
    exact List.mem_append_right _ (hl.subset hc)
  rw [← hlater, List.pairwise_append] at hincreasing
  rcases List.mem_append.1 hcmem with hc | hc
  · exact hat (hincreasing.2.2 c hc a ha)
  · exact ht (List.mem_map_of_mem hc)

/-- A ticker that need not do anything has no request and nothing whose time is over. -/
theorem fate_of_rest (hr : Run h k) (hrest : k.work now = none) (hstopped : ¬Stopped h)
    (ha : a ∈ accepted h) (hdue : deadline a ≤ now) :
    a.2 ∈ (delivered h).map (·.2) ∨ Superseded h a := by
  have hstopping : k.stopping = false := by
    rw [Bool.eq_false_iff]
    exact fun hs => hstopped (hr.kept.stopping.1 hs)
  rcases hr.kept.fate hstopping a ha with hdel | hs | hp
  · exact .inl hdel
  · exact .inr hs
  · have hfire := fire?_eq_some.2 ⟨_, hp, hdue, rfl⟩
    simp only [work, hr.kept.running hstopping, hstopping] at hrest
    cases hinbox : k.inbox with
    | nil => simp [hinbox, hfire] at hrest
    | cons t inbox => simp [hinbox] at hrest

/-- In every run, accepted timeouts are delivered in the order of their positions, each at
    its time and at most once, unless they are superseded before. -/
theorem singleFlight (hr : Run h k) : SingleFlight h k := by
  have hk := hr.kept
  obtain ⟨pending, before, l, hacc, hl, hd, -⟩ := hk.flight
  have hsub : l.Sublist (accepted h) := hacc ▸ hl.trans (List.sublist_append_right _ _)
  have hahead : ∀ (t : Timeout) (inbox : List Timeout),
      ({ k with inbox } : Ticker).ahead t = true ↔ _ := fun t _ => hk.ahead_iff t
  refine ⟨?_, (List.sublist_append_right _ _).trans hk.requests, ⟨l, hsub, hd⟩, ?_, ?_,
    fun _ _ _ => hr.stale_not_delivered, fun _ hrest hstopped _ => hr.fate_of_rest hrest hstopped,
    hk.undelivered, fun h₁ => hr.delivered_of_stopped⟩
  · have hincreasing : (l.map (·.2)).Pairwise fun later earlier =>
        earlier.roundStep < later.roundStep :=
      List.pairwise_map.2 ((accepted_increasing h).sublist hsub)
    rw [← map_delivered hd] at hincreasing
    exact List.pairwise_map.1 hincreasing
  · intro now t k' hstep hnew
    cases hstep with
    | @look _ inbox _ _ hinbox =>
      rw [accept, if_pos ((hahead t inbox).2 hnew), deadline_eq]
  · rintro now t k' hstep ⟨a, ha, hat⟩
    cases hstep with
    | @look _ inbox _ _ hinbox =>
      rw [accept, if_neg fun hnew => hat ((hahead t inbox).1 hnew a ha)]

end Run

/-- One timeout takes the place of another, a third comes too late, and then the ticker is
    stopped. -/
theorem singleFlight_replaced :
    let propose : Timeout := ⟨.ofMillis 100, 1, 0, .propose⟩
    let prevote : Timeout := ⟨.ofMillis 50, 1, 0, .prevote⟩
    let h : History := [(60000000, .close), (60000000, .act .stop), (60000000, .deliver prevote),
      (2, .look propose), (2, .act (.schedule propose)), (1, .look prevote),
      (1, .act (.schedule prevote)), (0, .look propose), (0, .act (.schedule propose))]
    let k : Ticker := ⟨[], some ⟨1, 0, .prevote⟩, none, true, false, true⟩
    Run h k ∧ SingleFlight h k ∧ delivered h = [(60000000, prevote)] := by
  intro propose prevote h k
  have hr : Run h k := by
    have h₁ : Run (h.drop 7) _ := .step (.step .start (by decide) (.act _)) (by decide)
      (.look rfl rfl rfl)
    have h₂ : Run (h.drop 5) _ := .step (.step h₁ (by decide) (.act _)) (by decide)
      (.look rfl rfl rfl)
    have h₃ : Run (h.drop 3) _ := .step (.step h₂ (by decide) (.act _)) (by decide)
      (.look rfl rfl rfl)
    have h₄ : Run (h.drop 2) _ := .step h₃ (by decide)
      (.deliver rfl rfl (fire?_eq_some.2 ⟨_, rfl, by decide, rfl⟩))
    exact .step (.step h₄ (by decide) (.act _)) (by decide) (.close rfl rfl)
  exact ⟨hr, hr.singleFlight, rfl⟩

/-! ## The ticker among callers -/

/-- What the ticker tells by a deed. -/
def Deed.told : Deed → List Event
  | .act _ | .look _ => []
  | .deliver t => [.delivered t]
  | .close => [.closed]

/-- The deliveries among what was told, and when, the latest first. -/
def deliveries (log : List (Nat × Event)) : List (Nat × Timeout) :=
  (log.filterMap fun e => match e.2 with
    | .delivered t => some (Moment.ofMillis e.1, t)
    | .closed => none).reverse

/-- How many steps the ticker can do at one moment, if nobody does anything to it. -/
def effort (k : Ticker) : Nat :=
  k.inbox.length + (!k.inbox.isEmpty || k.pending.isSome).toNat + k.running.toNat

theorem effort_le (k : Ticker) : k.effort ≤ k.inbox.length + 2 := by
  have hpending := Bool.toNat_le (!k.inbox.isEmpty || k.pending.isSome)
  have hrunning := Bool.toNat_le k.running
  simp only [effort]
  omega

theorem inbox_accept (now : Nat) (k : Ticker) (t : Timeout) : (k.accept now t).inbox = k.inbox := by
  simp only [accept]
  split <;> rfl

/-- The work of the ticker is done in steps, of which there are not many. -/
theorem step_of_work {events : List Event} (hwork : k.work now = some (k', events)) :
    ∃ deed, Step now k deed k' ∧ deed.told = events ∧ k'.effort < k.effort := by
  simp only [work] at hwork
  split at hwork
  next => cases hwork
  next hrunning =>
    rw [Bool.not_eq_true', Bool.not_eq_false] at hrunning
    split at hwork
    next hstopping =>
      cases hwork
      exact ⟨.close, .close hrunning hstopping, rfl, by simp [effort, hrunning]⟩
    next hstopping =>
      rw [Bool.not_eq_true] at hstopping
      split at hwork
      next t inbox hinbox =>
        cases hwork
        refine ⟨.look t, .look hrunning hstopping hinbox, rfl, ?_⟩
        have hle := effort_le ({ k with inbox }.accept now t)
        rw [inbox_accept] at hle
        simp only [effort, hinbox, hrunning, List.length_cons, List.isEmpty_cons] at hle ⊢
        exact Nat.lt_succ_of_le hle
      next hinbox =>
        obtain ⟨⟨t, k''⟩, hfire, heq⟩ := Option.map_eq_some_iff.1 hwork
        cases heq
        refine ⟨.deliver t, .deliver hrunning hstopping hfire, rfl, ?_⟩
        obtain ⟨d, hp, -, rfl⟩ := fire?_eq_some.1 hfire
        simp [effort, hinbox, hrunning, hp]

theorem delivered_cons (now : Nat) (deed : Deed) (h : History) (log : List (Nat × Event)) (ms : Nat)
    (hnow : now = Moment.ofMillis ms) (hlog : delivered h = deliveries log) :
    delivered ((now, deed) :: h) = deliveries (log ++ deed.told.map (ms, ·)) := by
  subst hnow
  rcases deed with a | t | t | _ <;> simp [delivered, deliveries, Deed.told, hlog]

/-- Whatever callers do, and whenever, the ticker has a history. -/
theorem exists_run {new : Empty → Prop} {s : Simulation Ticker Empty Event}
    (hs : Simulation.Reach new (.start .start) s) :
    ∃ h, Run h s.state ∧ (∀ e ∈ h, e.1 ≤ s.moment) ∧ delivered h = deliveries s.log := by
  induction hs with
  | refl => exact ⟨[], .start, fun e he => absurd he List.not_mem_nil, rfl⟩
  | @tail s s' _ hstep ih =>
    obtain ⟨h, hr, hnow, hlog⟩ := ih
    have hle : ∀ deed, ∀ e ∈ (s.moment, deed) :: h, e.1 ≤ s.moment := by
      intro deed
      exact List.forall_mem_cons.2 ⟨Nat.le_refl _, hnow⟩
    rcases hstep.uncalled with ⟨a, rfl⟩ | ⟨k', events, hwork, rfl⟩ | ⟨ms, rfl⟩
    · exact ⟨_, .step hr hnow (.act a), hle _, hlog⟩
    · obtain ⟨deed, hdeed, rfl, -⟩ := step_of_work hwork
      exact ⟨_, .step hr hnow hdeed, hle _, delivered_cons _ _ _ _ _ rfl hlog⟩
    · refine ⟨h, hr, fun e he => Nat.le_trans (hnow e he) ?_, hlog⟩
      exact Nat.mul_le_mul_right _ (Nat.le_add_right _ _)

/-- When all that can be done at a moment is done, the ticker is at rest. -/
theorem rest_settle (s : Simulation Ticker Empty Event) : s.settle.state.work s.moment = none := by
  have hless {now : Nat} {k k' : Ticker} {events : List Event}
      (hwork : k.work now = some (k', events)) : k'.effort < k.effort := by
    obtain ⟨-, -, -, heffort⟩ := step_of_work hwork
    exact heffort
  refine Simulation.rest_settleWithin (fun _ => effort) hless _ s
    (Nat.lt_succ_of_le (Nat.le_trans (effort_le _) ?_))
  exact Nat.le_add_left _ _

end ConsensusCore.Ticker
