import ConsensusCore.Proofs.Concurrency.Pool.Lending

/-!
# Turns at a pool

Callers that find no handler idle wait for their turn. Handlers come to them in three ways: one is
added, one is put back, or one has been given to a caller that goes away without taking it. In each
way it goes to the first in the line, and only if nobody waits does it become idle (`Hands`).

Tickets are drawn in the order in which callers begin to wait. What is done to a pool serves some
of those that wait, in their order, and lets others leave; those that begin to wait come last
(`Moves`). So all that have been served and all that wait, one after the other, are in the order of
their tickets.

Anybody may put back any handler (`Lending.Turn`), and a caller whose time is over is in the line
until it leaves.

* `Lending.Turns.fair`: whatever is done, nothing is idle while somebody waits, and those that wait
  are served in the order in which they began to.
-/

namespace ConsensusCore.Pool

variable {η : Type} {p p' p'' : Pool η} {given : List (Nat × η)} {h : η} {t next : Nat}

/-! ## What is given to those that wait -/

/-- What has been given to those that waited. -/
def served (p p' : Pool η) : List (Nat × η) :=
  p'.line.granted.filter fun g => decide (g.1 ∈ p.line.waiting)

/-- A handler goes to the first in the line, or becomes idle if nobody waits. -/
def Hands (p p' : Pool η) (h : η) : Prop :=
  (∃ t ts, p.line.waiting = t :: ts ∧ p'.line.waiting = ts ∧ served p p' = [(t, h)] ∧
    h ∈ p'.busy ∧ p'.idle = p.idle) ∨
  p.line.waiting = [] ∧ p'.line.waiting = [] ∧ p'.idle = p.idle ++ [h]

/-- What is done to a pool, if this is given to those that wait. -/
structure Moves (p p' : Pool η) (given : List (Nat × η)) : Prop where
  drawn : p.nextTicket ≤ p'.nextTicket
  /-- Some are served and some leave, and those that begin to wait are the last. -/
  turns : (given.map (·.1) ++ p'.line.waiting).Sublist
    (p.line.waiting ++ List.range' p.nextTicket (p'.nextTicket - p.nextTicket))
  granted : ∃ kept, kept.Sublist p.line.granted ∧ p'.line.granted = kept ++ given
  waited : ∀ g ∈ given, g.1 ∈ p.line.waiting
  idle : p.line.waiting = [] ∨ p.idle = [] → p'.line.waiting = [] ∨ p'.idle = []

/-- What somebody takes that it was given to is not on its way any more. -/
theorem receive_eq (hr : p.receive t = some (h, p')) : ∃ line, p' = { p with line } ∧
    line.waiting = p.line.waiting ∧ line.granted.Sublist p.line.granted := by
  obtain ⟨⟨h', line⟩, hline, heq⟩ := Option.map_eq_some_iff.1 hr
  cases heq
  obtain ⟨h'', -, heq⟩ := Option.map_eq_some_iff.1 hline
  cases heq
  exact ⟨_, rfl, rfl, List.filter_sublist⟩

theorem Hands.congr (hh : Hands p' p'' h) (hwaiting : p'.line.waiting = p.line.waiting)
    (hidle : p'.idle = p.idle) : Hands p p'' h := by
  rwa [Hands, served, hwaiting, hidle] at hh

namespace Moves

/-- The line stays as it is. -/
theorem same (hline : p'.line = p.line) (hdrawn : p.nextTicket ≤ p'.nextTicket)
    (hidle : p.idle = [] → p'.idle = []) : Moves p p' [] where
  drawn := hdrawn
  turns := by
    rw [hline]
    exact List.sublist_append_left _ _
  granted := ⟨p.line.granted, .refl _, by rw [hline, List.append_nil]⟩
  waited _ hg := absurd hg List.not_mem_nil
  idle := hline ▸ Or.imp_right hidle

theorem refl (p : Pool η) : Moves p p [] := same rfl (Nat.le_refl _) id

theorem join (hidle : p.idle = []) : Moves p p.join.2 [] where
  drawn := Nat.le_succ _
  turns := by
    simp only [Pool.join, WaitingLine.join, Nat.add_sub_cancel_left]
    exact .refl _
  granted := ⟨p.line.granted, .refl _, (List.append_nil _).symm⟩
  waited _ hg := absurd hg List.not_mem_nil
  idle _ := .inr hidle

theorem receive (hr : p.receive t = some (h, p')) : Moves p p' [] := by
  obtain ⟨line, rfl, hwaiting, hgranted⟩ := receive_eq hr
  exact
    { drawn := Nat.le_refl _
      turns := by
        rw [hwaiting]
        exact List.sublist_append_left _ _
      granted := ⟨_, hgranted, (List.append_nil _).symm⟩
      waited := fun _ hg => absurd hg List.not_mem_nil
      idle := Or.imp_left hwaiting.trans }

theorem leave {line : WaitingLine η} (hleave : p.line.leave t = some line) :
    Moves p { p with line } [] where
  drawn := Nat.le_refl _
  turns := (WaitingLine.sublist_leave hleave).trans (List.sublist_append_left _ _)
  granted := ⟨p.line.granted, .refl _, by
    rw [(WaitingLine.perm_leave hleave).2, List.append_nil]⟩
  waited _ hg := absurd hg List.not_mem_nil
  idle := by
    refine Or.imp_left fun hwaiting => ?_
    have hsub := WaitingLine.sublist_leave hleave
    rw [hwaiting] at hsub
    exact List.sublist_nil.1 hsub

/-- Nothing is given before something is. -/
theorem trans (h₁ : Moves p p' []) (h₂ : Moves p' p'' given)
    (hwaited : ∀ g ∈ given, g.1 ∈ p.line.waiting) : Moves p p'' given where
  drawn := Nat.le_trans h₁.drawn h₂.drawn
  turns := by
    obtain ⟨m, hm⟩ := Nat.exists_eq_add_of_le h₁.drawn
    obtain ⟨n, hn⟩ := Nat.exists_eq_add_of_le h₂.drawn
    have hturns := h₂.turns.trans (h₁.turns.append_right _)
    rw [hn, hm, Nat.add_sub_cancel_left, Nat.add_sub_cancel_left, List.append_assoc,
      List.range'_append_1] at hturns
    rwa [hn, hm, Nat.add_assoc, Nat.add_sub_cancel_left]
  granted := by
    obtain ⟨kept, hkept, hgranted⟩ := h₁.granted
    obtain ⟨kept', hkept', hgranted'⟩ := h₂.granted
    rw [List.append_nil] at hgranted
    exact ⟨kept', hkept'.trans (hgranted ▸ hkept), hgranted'⟩
  waited := hwaited
  idle hidle := h₂.idle (h₁.idle hidle)

/-- All that has been given to those that waited is still on its way. -/
theorem served_eq (hm : Moves p p' given) (hl : p.line.Issued next) : served p p' = given := by
  obtain ⟨kept, hkept, hgranted⟩ := hm.granted
  obtain ⟨-, -, hapart⟩ := List.nodup_append.1 hl.nodup
  rw [served, hgranted, List.filter_append, List.filter_eq_nil_iff.2, List.filter_eq_self.2]
  · rfl
  · exact fun g hg => decide_eq_true (hm.waited g hg)
  · intro g hg hwaits
    exact hapart g.1 (of_decide_eq_true hwaits) g.1 (List.mem_map_of_mem (hkept.subset hg)) rfl

end Moves

/-! ## What is offered -/

variable [DecidableEq η] {caller : Caller} {limit : Duration} {now deadline : Nat}

/-- What is offered goes to the first in the line, or becomes idle. -/
theorem offer_moves (hidle : p.line.waiting = [] ∨ p.idle = []) (h : η) :
    ∃ given, Moves p (p.offer h) given ∧
      (∀ next, p.line.Issued next → Hands p (p.offer h) h) := by
  rcases hserve : p.line.serve h with _ | line
  · have hwaiting := WaitingLine.serve_eq_none hserve
    have heq : p.offer h = { p with idle := p.idle ++ [h] } := by simp only [offer, hserve]
    rw [heq]
    refine ⟨[], ?_, fun _ _ => .inr ⟨hwaiting, hwaiting, rfl⟩⟩
    exact
      { drawn := Nat.le_refl _
        turns := List.sublist_append_left _ _
        granted := ⟨p.line.granted, .refl _, (List.append_nil _).symm⟩
        waited := fun _ hg => absurd hg List.not_mem_nil
        idle := fun _ => .inl hwaiting }
  · obtain ⟨t, hwaiting, hgranted⟩ := WaitingLine.waiting_serve hserve
    have heq : p.offer h = { p with line, busy := p.busy.insert h } := by
      simp only [offer, hserve]
    have hmoves : Moves p (p.offer h) [(t, h)] := by
      rw [heq]
      exact
        { drawn := Nat.le_refl _
          turns := by
            rw [hwaiting]
            exact List.sublist_append_left _ _
          granted := ⟨p.line.granted, .refl _, hgranted⟩
          waited := by simp [hwaiting]
          idle := fun _ => .inr (hidle.resolve_left (by simp [hwaiting])) }
    refine ⟨_, hmoves, fun next hl =>
      .inl ⟨t, line.waiting, hwaiting, ?_, hmoves.served_eq hl, ?_, ?_⟩⟩
      <;> rw [heq]
    exact List.mem_insert_self

/-- What is put back is offered, if it is busy. -/
theorem put_moves (hidle : p.line.waiting = [] ∨ p.idle = []) (h : η) :
    ∃ given, Moves p (p.put h).2 given ∧
      (h ∈ p.busy → ∀ next, p.line.Issued next → Hands p (p.put h).2 h) := by
  by_cases hbusy : h ∈ p.busy
  · obtain ⟨given, hmoves, hhands⟩ := offer_moves (p := { p with busy := p.busy.erase h }) hidle h
    have hput : (p.put h).2 = { p with busy := p.busy.erase h }.offer h := by
      simp only [Pool.put, put?, if_pos hbusy]
    rw [hput]
    have hsame : Moves p { p with busy := p.busy.erase h } [] := .same rfl (Nat.le_refl _) id
    exact ⟨given, hsame.trans hmoves hmoves.waited, fun _ => hhands⟩
  · rw [put_of_not_mem hbusy]
    exact ⟨[], .refl p, fun hmem => absurd hmem hbusy⟩

/-- What is added is offered, if the pool does not have it. -/
theorem add_moves (hidle : p.line.waiting = [] ∨ p.idle = []) (h : η) :
    ∃ given, Moves p (p.add h) given ∧
      (h ∉ p.idle → h ∉ p.busy → ∀ next, p.line.Issued next → Hands p (p.add h) h) := by
  by_cases hhas : h ∈ p.busy ∨ h ∈ p.idle
  · have hadd : p.add h = p := if_pos hhas
    rw [hadd]
    exact ⟨[], .refl p, fun hnot hnot' => absurd hhas (not_or.2 ⟨hnot', hnot⟩)⟩
  · have hadd : p.add h = p.offer h := if_neg hhas
    rw [hadd]
    obtain ⟨given, hmoves, hhands⟩ := offer_moves hidle h
    exact ⟨given, hmoves, fun _ _ => hhands⟩

/-- Whoever goes away leaves the line, or puts back what has been given to it. -/
theorem withdraw_moves (hidle : p.line.waiting = [] ∨ p.idle = []) (t : Nat) :
    ∃ given, Moves p (p.withdraw t) given ∧ ∀ next, p.line.Issued next →
      ∀ h ∈ p.busy, (t, h) ∈ p.line.granted → Hands p (p.withdraw t) h := by
  cases hleave : p.line.leave t with
  | some line =>
    have heq : p.withdraw t = { p with line } := by simp only [Pool.withdraw, hleave]
    rw [heq]
    refine ⟨[], .leave hleave, fun next hl h _ hmem => ?_⟩
    cases hleave.symm.trans (hl.receive_of_mem hmem).1
  | none =>
    cases hreceive : p.line.receive t with
    | none =>
      have heq : p.withdraw t = p := by
        simp only [Pool.withdraw, hleave, Pool.receive, hreceive, Option.map_none]
      rw [heq]
      refine ⟨[], .refl p, fun next hl h _ hmem => ?_⟩
      obtain ⟨-, line, hsome⟩ := hl.receive_of_mem hmem
      cases hreceive.symm.trans hsome
    | some r =>
      obtain ⟨h, line⟩ := r
      have hr : p.receive t = some (h, { p with line }) := by
        simp only [Pool.receive, hreceive, Option.map_some]
      have heq : p.withdraw t = (({ p with line } : Pool η).put h).2 := by
        simp only [Pool.withdraw, hleave, hr, Pool.put]
        split <;> simp only [*, Option.getD_some, Option.getD_none]
      rw [heq]
      have hmoves := Moves.receive hr
      obtain ⟨line', hline, hwaiting, -⟩ := receive_eq hr
      cases hline
      obtain ⟨given, hput, hhands⟩ := put_moves (hmoves.idle hidle) h
      refine ⟨given, hmoves.trans hput fun g hg => hwaiting ▸ hput.waited g hg, ?_⟩
      intro next hl h' hbusy hmem
      obtain ⟨-, line', hsome⟩ := hl.receive_of_mem hmem
      cases hreceive.symm.trans hsome
      exact (hhands hbusy next (hl.receive hreceive).2.2).congr hwaiting rfl

/-! ## Calls -/

variable {c : Call} {q : Polled (Pool η) Call (Event η)}

theorem inLine_moves (hidle : p.line.waiting = [] ∨ p.idle = [])
    (hq : p.inLine now caller limit t deadline = some q) : ∃ given, Moves p q.state given := by
  rcases inLine_cases hq with ⟨h, p', hr, rfl⟩ | ⟨-, -, rfl⟩
  · exact ⟨[], .receive hr⟩
  · obtain ⟨given, hmoves, -⟩ := withdraw_moves hidle t
    exact ⟨given, hmoves⟩

omit [DecidableEq η] in
/-- Some handler is drawn if any is idle. -/
theorem drawn_eq_none {drawn : Nat} (hnone : p.idle[drawn % p.idle.length]? = none) :
    p.idle = [] := by
  by_contra hne
  rw [List.getElem?_eq_none_iff] at hnone
  exact absurd (Nat.mod_lt drawn (List.length_pos_iff.2 hne)) (Nat.not_lt_of_le hnone)

/-- Whoever finds a handler idle takes it, and all others join the line. -/
theorem poll_moves (hidle : p.line.waiting = [] ∨ p.idle = [])
    (hq : p.poll now caller c = some q) : ∃ given, Moves p q.state given := by
  obtain ⟨limit, drawn | ⟨t, deadline⟩⟩ := c
  · simp only [Pool.poll] at hq
    split at hq
    next h hget =>
      cases hq
      refine ⟨[], .same rfl (Nat.le_refl _) fun hnil => ?_⟩
      rw [hnil] at hget
      cases hget
    next hnone =>
      have hjoin := Moves.join (drawn_eq_none hnone)
      have hleave : p.join.2.line.leave p.join.1 = some _ :=
        if_pos (List.mem_append_right _ (List.mem_singleton_self _))
      rcases hline : p.join.2.inLine now caller limit p.join.1 (Moment.after now limit) with _ | q'
        <;> rw [hline] at hq <;> cases hq
      · exact ⟨[], hjoin⟩
      rcases inLine_cases hline with ⟨h, p', hr, rfl⟩ | ⟨-, -, rfl⟩
      · exact ⟨[], hjoin.trans (.receive hr) (by simp)⟩
      · refine ⟨[], hjoin.trans ?_ (by simp)⟩
        -- the time is over at once
        simp only [Pool.withdraw, hleave]
        exact .leave hleave
  · exact inLine_moves hidle hq

/-! ## Turns -/

namespace Lending

/-- What is done next. Anybody may put back any handler. -/
inductive Turn (s : Lending η) : Lending η → Prop
  | lend {s' : Lending η} : Step (fun _ _ => True) s s' → Turn s s'
  | put (h : η) : Turn s { s with sim := (s.sim.act (.put h)).2 }

/-- What has been given to those that waited, the earliest first. -/
inductive Turns : List (Nat × η) → Lending η → Prop
  | start : Turns [] start
  | step {given : List (Nat × η)} {s s' : Lending η} : Turns given s → Turn s s' →
    Turns (given ++ served s.sim.state s'.sim.state) s'

/-- What is to be so after all that has been done. -/
structure Fair (given : List (Nat × η)) (s : Lending η) : Prop where
  /-- While somebody waits, no handler is idle. -/
  none_idle : s.sim.state.line.waiting ≠ [] → s.sim.state.idle = []
  /-- All that have been served and all that wait began to wait one after the other. -/
  in_order : (given.map (·.1) ++ s.sim.state.line.waiting).Pairwise (· < ·)
  /-- Whoever begins to wait does so after them. -/
  begins : ∀ s', Turn s s' → ∀ t ∈ s'.sim.state.line.waiting, t ∉ s.sim.state.line.waiting →
    ∀ t' ∈ given.map (·.1) ++ s.sim.state.line.waiting, t' < t
  /-- Whoever does not wait any more has been served, or has gone away. -/
  ends : ∀ s', Turn s s' → ∀ t ∈ s.sim.state.line.waiting, t ∉ s'.sim.state.line.waiting →
    t ∈ (served s.sim.state s'.sim.state).map (·.1) ∨
      (∃ caller, (caller, t) ∈ s.waiters) ∧ ∀ caller, (caller, t) ∉ s'.waiters
  /-- What is added goes to the first in the line. -/
  add : ∀ h, h ∉ s.sim.state.idle → h ∉ s.sim.state.busy →
    Hands s.sim.state (s.add h).sim.state h
  /-- What is put back goes to the first in the line. -/
  put : ∀ h ∈ s.sim.state.busy, Hands s.sim.state (s.sim.act (.put h)).2.state h
  /-- What has been given to a caller that is withdrawn goes to the first in the line. -/
  withdraw : ∀ name caller limit t deadline h,
    s.sim.calls.find? (·.1.name == name) = some (caller, ⟨limit, .queued t deadline⟩) →
    (t, h) ∈ s.sim.state.line.granted → h ∈ s.sim.state.busy →
    Hands s.sim.state (s.withdraw name).sim.state h
  /-- So does what has been given to a caller whose time was over. -/
  leave : ∀ caller t h, (t, h) ∈ s.sim.state.line.granted → h ∈ s.sim.state.busy →
    Hands s.sim.state (s.leave caller t).sim.state h
  /-- What has been given to a caller that does not go away is what it gets. -/
  got : ∀ caller limit t deadline h, (caller, ⟨limit, .queued t deadline⟩) ∈ s.sim.calls →
    (t, h) ∈ s.sim.state.line.granted → ∃ sim, s.sim.poll caller = some sim ∧
      sim.log = s.sim.log ++ [(s.sim.now, .got caller h)]
  /-- Whoever calls while a handler is idle gets one at once, when nobody waits. -/
  at_once : s.sim.state.idle ≠ [] → s.sim.state.line.waiting = [] ∧ ∀ name limit drawn,
    ∃ h ∈ s.sim.state.idle, s.sim.call name ⟨limit, .fresh drawn⟩ = (true, { s.sim with
      state := s.sim.state.take h
      nextCall := s.sim.nextCall + 1
      log := s.sim.log ++ [(s.sim.now, .got ⟨name, s.sim.nextCall⟩ h)] })

variable {s s' : Lending η}

/-- What a pool with a line keeps. -/
structure Kept (given : List (Nat × η)) (s : Lending η) : Prop where
  orderly : s.Orderly
  idle : s.sim.state.line.waiting = [] ∨ s.sim.state.idle = []
  in_order : (given.map (·.1) ++ s.sim.state.line.waiting).Pairwise (· < ·)
  drawn : ∀ t ∈ given.map (·.1) ++ s.sim.state.line.waiting, t < s.sim.state.nextTicket

omit [DecidableEq η] in
theorem kept_start : Kept [] (start : Lending η) :=
  ⟨orderly_start, .inl rfl, .nil, fun _ ht => absurd ht List.not_mem_nil⟩

theorem Turn.orderly (h : Turn s s') (hs : s.Orderly) : s'.Orderly := by
  cases h with
  | lend hstep => exact (hstep.keeps hs).1
  | put h => exact ⟨⟨hs.distinct.nodup, hs.distinct.lt⟩, hs.sound.put h⟩

theorem moves_of_poll {sim sim' : Simulation (Pool η) Call (Event η)} (hd : sim.Distinct)
    (hidle : sim.state.line.waiting = [] ∨ sim.state.idle = [])
    (hpoll : sim.poll caller = some sim') : ∃ given, Moves sim.state sim'.state given := by
  obtain ⟨before, c, after, q, -, hq, rfl⟩ := hd.poll hpoll
  exact poll_moves hidle hq

theorem Turn.moves (h : Turn s s') (hs : s.Orderly)
    (hidle : s.sim.state.line.waiting = [] ∨ s.sim.state.idle = []) :
    ∃ given, Moves s.sim.state s'.sim.state given := by
  cases h with
  | put h =>
    obtain ⟨given, hmoves, -⟩ := put_moves hidle h
    exact ⟨given, hmoves⟩
  | lend hstep =>
    cases hstep with
    | @add h _ =>
      obtain ⟨given, hmoves, -⟩ := add_moves hidle h
      exact ⟨given, hmoves⟩
    | @put _ h _ =>
      obtain ⟨given, hmoves, -⟩ := put_moves hidle h
      exact ⟨given, hmoves⟩
    | remove h =>
      have hstate : (s.remove h).sim.state = (s.sim.state.remove? h).getD s.sim.state := by
        simp only [Lending.remove, Simulation.act, Primitive.act, Pool.act]
        cases s.sim.state.remove? h <;> rfl
      rw [hstate]
      cases hr : s.sim.state.remove? h with
      | none => exact ⟨[], .refl _⟩
      | some p' =>
        rcases remove?_cases hr with ⟨-, rfl⟩ | ⟨-, rfl⟩
        · exact ⟨[], .same rfl (Nat.le_refl _) id⟩
        · refine ⟨[], .same rfl (Nat.le_refl _) fun hnil => ?_⟩
          change s.sim.state.idle.erase h = []
          rw [hnil, List.erase_nil]
    | call name limit drawn =>
      obtain ⟨caller, hcaller, heq | hpoll⟩ := s.sim.call_eq name ⟨limit, .fresh drawn⟩
      · simp only [Lending.polled, heq]
        exact ⟨[], .refl _⟩
      · have hd := hs.distinct.append (c := ⟨limit, .fresh drawn⟩) hcaller
        have hmoves := moves_of_poll hd hidle hpoll
        exact hmoves
    | poll hpoll => exact moves_of_poll hs.distinct hidle hpoll
    | withdraw name =>
      cases hw : s.sim.withdraw? name with
      | none =>
        simp only [Lending.withdraw, hw, Option.getD_none]
        exact ⟨[], .refl _⟩
      | some sim =>
        simp only [Lending.withdraw, hw, Option.getD_some]
        obtain ⟨before, caller, ⟨limit, drawn | ⟨t, deadline⟩⟩, after, -, rfl⟩ :=
          hs.distinct.withdraw hw
        · exact ⟨[], .refl _⟩
        · obtain ⟨given, hmoves, -⟩ := withdraw_moves hidle t
          exact ⟨given, hmoves⟩
    | wait ms => exact ⟨[], .refl _⟩
    | enter name limit hnil => exact ⟨[], .join hnil⟩
    | lapse hmem hr hdeadline => exact ⟨[], .refl _⟩
    | @leave caller t hmem =>
      obtain ⟨given, hmoves, -⟩ := withdraw_moves hidle t
      exact ⟨given, hmoves⟩

theorem Kept.turn (hk : Kept given s) (h : Turn s s') :
    Kept (given ++ served s.sim.state s'.sim.state) s' := by
  obtain ⟨given', hmoves⟩ := h.moves hk.orderly hk.idle
  rw [hmoves.served_eq hk.orderly.sound.line]
  have hturns := hmoves.turns.append_left (given.map (·.1))
  rw [← List.append_assoc, ← List.append_assoc, ← List.map_append] at hturns
  have hmem : ∀ t ∈ given.map (·.1) ++ s.sim.state.line.waiting ++ List.range'
      s.sim.state.nextTicket (s'.sim.state.nextTicket - s.sim.state.nextTicket),
      t < s'.sim.state.nextTicket := by
    intro t ht
    have := hmoves.drawn
    rcases List.mem_append.1 ht with ht | ht
    · exact Nat.lt_of_lt_of_le (hk.drawn t ht) hmoves.drawn
    · rw [List.mem_range'_1] at ht
      omega
  refine ⟨h.orderly hk.orderly, hmoves.idle hk.idle, .sublist hturns ?_,
    fun t ht => hmem t (hturns.subset ht)⟩
  -- new tickets are higher than all that have been drawn
  refine List.pairwise_append.2 ⟨hk.in_order, List.pairwise_lt_range' , fun t ht t' ht' => ?_⟩
  rw [List.mem_range'_1] at ht'
  exact Nat.lt_of_lt_of_le (hk.drawn t ht) ht'.1

namespace Turns

theorem kept (h : Turns given s) : Kept given s := by
  induction h with
  | start => exact kept_start
  | step _ hturn ih => exact ih.turn hturn

/-- Whatever is done, no handler is idle while somebody waits, and all are served in the order in
    which they began to wait. -/
theorem fair (h : Turns given s) : Fair given s := by
  have hk := h.kept
  have hl := hk.orderly.sound.line
  refine
    { none_idle := hk.idle.resolve_left
      in_order := hk.in_order
      begins := fun s' hturn t ht hnew t' ht' => ?_
      ends := fun s' hturn t ht hgone => ?_
      add := fun h hidle hbusy => ?_
      put := fun h hbusy => ?_
      withdraw := fun name caller limit t deadline h hcall hgiven hbusy => ?_
      leave := fun caller t h hgiven hbusy => ?_
      got := fun caller limit t deadline h hcall hgiven => ?_
      at_once := fun hidle => ?_ }
  · obtain ⟨given', hmoves⟩ := hturn.moves hk.orderly hk.idle
    have hmem := hmoves.turns.subset (List.mem_append_right _ ht)
    have hdrawn := List.mem_range'_1.1 ((List.mem_append.1 hmem).resolve_left hnew)
    exact Nat.lt_of_lt_of_le (hk.drawn t' ht') hdrawn.1
  · by_cases hserved : t ∈ (served s.sim.state s'.sim.state).map (·.1)
    · exact .inl hserved
    · refine .inr ⟨?_, fun caller hwaits => ?_⟩
      · have hticket := hk.orderly.sound.waits.mem_iff.1 (List.mem_append_left _ ht)
        obtain ⟨⟨caller, t⟩, hwaits, rfl⟩ := List.mem_map.1 hticket
        exact ⟨caller, hwaits⟩
      · have hticket :=
          (hturn.orderly hk.orderly).sound.waits.mem_iff.2 (List.mem_map_of_mem hwaits)
        obtain ⟨g, hg, rfl⟩ := List.mem_map.1 ((List.mem_append.1 hticket).resolve_left hgone)
        exact hserved (List.mem_map_of_mem (List.mem_filter.2 ⟨hg, decide_eq_true ht⟩))
  · obtain ⟨-, -, hhands⟩ := add_moves hk.idle h
    exact hhands hidle hbusy _ hl
  · obtain ⟨-, -, hhands⟩ := put_moves hk.idle h
    exact hhands hbusy _ hl
  · obtain ⟨-, -, hhands⟩ := withdraw_moves hk.idle t
    have hsim : s.withdraw name = { s with sim := { s.sim with
        state := s.sim.state.withdraw t
        calls := s.sim.calls.filter fun c => !(c.1 == caller) } } := by
      simp only [Lending.withdraw, Simulation.withdraw?, hcall, Option.map_some, Option.getD_some]
      rfl
    rw [hsim]
    exact hhands _ hl h hbusy hgiven
  · obtain ⟨-, -, hhands⟩ := withdraw_moves hk.idle t
    exact hhands _ hl h hbusy hgiven
  · obtain ⟨-, line, hreceive⟩ := hl.receive_of_mem hgiven
    have hp : Primitive.poll s.sim.moment caller ⟨limit, .queued t deadline⟩ s.sim.state =
        some ⟨{ s.sim.state with line }, none, [.got caller h]⟩ := by
      simp only [Primitive.poll, Pool.poll, Pool.inLine, Pool.receive, hreceive, Option.map_some]
    obtain ⟨_, _, -, hpoll⟩ := hk.orderly.distinct.poll_of_mem hcall hp
    exact ⟨_, hpoll, rfl⟩
  · refine ⟨hk.idle.resolve_right hidle, fun name limit drawn => ?_⟩
    have hlt := Nat.mod_lt drawn (List.length_pos_iff.2 hidle)
    have hp : Primitive.poll s.sim.moment ⟨name, s.sim.nextCall⟩ ⟨limit, .fresh drawn⟩ s.sim.state =
        some ⟨s.sim.state.take (s.sim.state.idle.get ⟨_, hlt⟩), none,
          [.got ⟨name, s.sim.nextCall⟩ (s.sim.state.idle.get ⟨_, hlt⟩)]⟩ := by
      simp only [Primitive.poll, Pool.poll, List.getElem?_eq_getElem hlt, List.get_eq_getElem]
    refine ⟨_, List.get_mem _ ⟨_, hlt⟩, ?_⟩
    rw [hk.orderly.distinct.call_of_poll hp]
    simp

end Turns

/-- Two wait, and the first is given a handler, but is withdrawn before it takes it. Then it is the
    turn of the second. -/
theorem fair_withdrawn :
    let s₀ : Lending Nat := start
    let s₁ := s₀.polled (s₀.sim.call "first" ⟨.ofMillis 10, .fresh 0⟩).2
    let s₂ := s₁.polled (s₁.sim.call "second" ⟨.ofMillis 10, .fresh 0⟩).2
    let s₃ := s₂.add 7
    let s := s₃.withdraw "first"
    Turns [(0, 7), (1, 7)] s ∧ Fair [(0, 7), (1, 7)] s ∧
      s₃.sim.state.line.waiting = [1] ∧ Hands s₃.sim.state s.sim.state 7 := by
  intro s₀ s₁ s₂ s₃ s
  have h₁ := Turns.start.step (.lend (.call "first" (.ofMillis 10) 0) : Turn s₀ s₁)
  have h₂ := h₁.step (.lend (.call "second" (.ofMillis 10) 0) : Turn s₁ s₂)
  have h₃ := h₂.step (.lend (.add trivial) : Turn s₂ s₃)
  have h := h₃.step (.lend (.withdraw "first") : Turn s₃ s)
  have hserved : served s₀.sim.state s₁.sim.state = [] ∧ served s₁.sim.state s₂.sim.state = [] ∧
      served s₂.sim.state s₃.sim.state = [(0, 7)] ∧ served s₃.sim.state s.sim.state = [(1, 7)] := by
    decide
  obtain ⟨e₁, e₂, e₃, e₄⟩ := hserved
  rw [e₁, e₂, e₃, List.append_nil, List.append_nil, List.nil_append] at h₃ h
  rw [e₄, List.singleton_append] at h
  have hcall : s₃.sim.calls.find? (·.1.name == "first") =
      some (⟨"first", 0⟩, ⟨.ofMillis 10, .queued 0 10000000⟩) := by decide
  exact ⟨h, h.fair, by decide,
    h₃.fair.withdraw "first" _ _ _ _ 7 hcall (by decide) (by decide)⟩

end Lending

end ConsensusCore.Pool
