import ConsensusCore.Proofs.Concurrency.Pool.Lending

/-!
# Evicted handlers

A handler can be removed while it is on loan. What is left of that loan, a caller that holds
the handler or one that it has been given to, must not bring it back. It does not as long as
the handler is not added again (`Step.stays_out`), for then it is not busy.

When it has been added again, and is busy on a new loan, the end of the old one is taken for
the end of the new one. `evicted_handler_lent_twice` is a run in which two callers come to
hold one handler in this way, although neither has put it back.

* `evicted_stays_out`: what is left of a loan changes nothing until the handler is added
  again; and if it is not added before the old loan is over, nobody gets it while somebody
  holds it.
-/

namespace ConsensusCore.Pool.Lending

variable {η : Type} [DecidableEq η] {s s' t : Lending η} {h : η}

/-- A handler that the pool does not have does not come back unless it is added. -/
theorem Step.stays_out (hstep : Step (fun _ h' => h' ≠ h) s s') (hh : h ∉ s.members) :
    h ∉ s'.members := by
  cases hstep with
  | add hne =>
    intro hmem
    rcases List.mem_insert_iff.1 hmem with heq | hmem
    · exact hne heq.symm
    · exact hh hmem
  | remove h' => exact fun hmem => hh (List.mem_filter.1 hmem).1
  | _ => exact hh

theorem Reach.stays_out (hreach : Reach (fun _ h' => h' ≠ h) s s') (hh : h ∉ s.members) :
    h ∉ s'.members := by
  induction hreach with
  | refl => exact hh
  | tail _ hstep ih => exact hstep.stays_out ih

/-- The withdrawal of a call that has been given what the pool does not have any more only ends
    the wait. -/
theorem Orderly.withdraw_evicted {caller : Caller} {ticket : Nat} (hs : s.Orderly)
    (hh : h ∉ s.members) (hwaits : (caller, ticket) ∈ s.waiters)
    (hgranted : (ticket, h) ∈ s.sim.state.line.granted) :
    (s.sim.state.withdraw ticket).idle = s.sim.state.idle ∧
      (s.sim.state.withdraw ticket).busy = s.sim.state.busy ∧
      (s.sim.state.withdraw ticket).line.waiting = s.sim.state.line.waiting := by
  have hbusy : h ∉ s.sim.state.busy := fun hmem => hh ((hs.sound.has h).2 (.inr hmem))
  obtain ⟨-, hkeys, hdisj⟩ := List.nodup_append.1 hs.sound.line.nodup
  have hkey : ticket ∈ s.sim.state.line.granted.map (·.1) := List.mem_map_of_mem hgranted
  have hsound := hs.sound.congr (List.perm_cons_erase hwaits).symm fun _ => .rfl
  rcases withdraw_cases hsound with ⟨line, hleave, -⟩ | ⟨h', p, -, hreceive, heq⟩
  · have hwaiting : ticket ∈ s.sim.state.line.waiting :=
      (WaitingLine.perm_leave hleave).1.mem_iff.2 List.mem_cons_self
    exact absurd rfl (hdisj ticket hwaiting ticket hkey)
  · obtain ⟨⟨h'', line⟩, hline, hp⟩ := Option.map_eq_some_iff.1 hreceive
    cases hp
    obtain ⟨hwaiting, hperm⟩ := hs.sound.line.perm_receive hline
    have hsame := List.inj_on_of_nodup_map hkeys hgranted (hperm.mem_iff.2 List.mem_cons_self) rfl
    cases hsame
    rw [heq, put_of_not_mem (p := { s.sim.state with line }) hbusy]
    exact ⟨rfl, rfl, hwaiting⟩

/-- What is left of a loan when a handler is removed, be it a caller that holds the handler or
    one that it has been given to, changes nothing until the handler is added again. If it is
    never added before the loans of it are over, then nobody gets it while somebody holds it. -/
theorem evicted_stays_out :
    (∀ {s t : Lending η} {h : η}, Reach (fun _ _ => True) start s →
      Reach (fun _ h' => h' ≠ h) (s.remove h) t →
        t.sim.act (.put h) = (.found false, t.sim) ∧
        ∀ caller ticket, (caller, ticket) ∈ t.waiters → (ticket, h) ∈ t.sim.state.line.granted →
          (t.sim.state.withdraw ticket).idle = t.sim.state.idle ∧
          (t.sim.state.withdraw ticket).busy = t.sim.state.busy ∧
          (t.sim.state.withdraw ticket).line.waiting = t.sim.state.line.waiting) ∧
    ∀ {s : Lending η} {caller : Caller} {h : η}, Reach Careful start s → (caller, h) ∈ s.held →
      s.places h = [.held caller] := by
  refine ⟨fun {s t h} hs ht => ?_, fun {s caller h} hs hheld => ?_⟩
  · have hout : h ∉ t.members := by
      refine ht.stays_out fun hmem => ?_
      simpa using (List.mem_filter.1 hmem).2
    have horderly : t.Orderly := (ht.keeps ((hs.keeps orderly_start).1.remove h).1).1
    have hbusy : h ∉ t.sim.state.busy := fun hmem => hout ((horderly.sound.has h).2 (.inr hmem))
    refine ⟨?_, fun caller ticket => horderly.withdraw_evicted hout⟩
    have hput := put_of_not_mem hbusy
    simp only [Simulation.act, Primitive.act, Pool.act, hput]
  · exact places_of_held ((hs.keeps orderly_start).2 (fun _ _ => id) exclusive_start) hheld

/-- A handler is removed on the way to a caller. Then neither a return nor the withdrawal brings
    it back. Added again after that, it is lent to one caller. -/
theorem evicted_stays_out_inFlight :
    let s₀ : Lending Nat := start
    let s := (s₀.polled (s₀.sim.call "first" ⟨.ofMillis 10, .fresh 0⟩).2).add 7
    let t := s.remove 7
    let s' := ((t.withdraw "first").add 7)
    let t' := s'.polled (s'.sim.call "second" ⟨.ofMillis 10, .fresh 0⟩).2
    s.places 7 = [.inFlight ⟨"first", 0⟩] ∧ t.sim.act (.put 7) = (.found false, t.sim) ∧
      (t.sim.state.withdraw 0).idle = t.sim.state.idle ∧ t'.places 7 = [.held ⟨"second", 1⟩] := by
  intro s₀ s t s' t'
  have hs : ∀ may : Lending Nat → Nat → Prop, may _ 7 → Reach may s₀ s := fun may hmay =>
    .tail (.single (.call "first" (.ofMillis 10) 0)) (.add hmay)
  obtain ⟨hput, hwithdraw⟩ :=
    evicted_stays_out.1 (hs _ trivial) (.refl : Reach (fun _ h' => h' ≠ 7) t t)
  have ht' : Reach Careful s₀ t' := by
    have ht : Reach Careful s₀ t := (hs _ (by decide)).tail (.remove 7)
    have hs' : Reach Careful s₀ s' := (ht.tail (.withdraw "first")).tail (.add (by decide))
    exact hs'.tail (.call "second" (.ofMillis 10) 0)
  exact ⟨by decide, hput, (hwithdraw ⟨"first", 0⟩ 0 (by decide) (by decide)).1,
    evicted_stays_out.2 ht' (by decide)⟩

/-- Two callers come to hold one handler, and neither has put it back: it is removed on the way
    to a third, added again and taken by the first of the two; and when the third is withdrawn,
    it becomes idle, and is taken by the second. -/
theorem evicted_handler_lent_twice :
    let s₀ : Lending Nat := start
    let s₁ := s₀.polled (s₀.sim.call "third" ⟨.ofMillis 10, .fresh 0⟩).2
    let s₂ := ((s₁.add 7).remove 7).add 7
    let s₃ := s₂.polled (s₂.sim.call "first" ⟨.ofMillis 10, .fresh 0⟩).2
    let s₄ := s₃.withdraw "third"
    let s := s₄.polled (s₄.sim.call "second" ⟨.ofMillis 10, .fresh 0⟩).2
    Reach (fun _ _ => True) s₀ s ∧
      (s₃.sim.state.idle = [] ∧ s₃.sim.state.busy = [7] ∧ s₃.held = [(⟨"first", 1⟩, 7)]) ∧
      (s₄.sim.state.idle = [7] ∧ s₄.sim.state.busy = [] ∧ s₄.held = [(⟨"first", 1⟩, 7)]) ∧
      s.held = [(⟨"first", 1⟩, 7), (⟨"second", 2⟩, 7)] := by
  intro s₀ s₁ s₂ s₃ s₄ s
  have h₁ : Reach (fun _ _ => True) s₀ s₁ := .single (.call "third" (.ofMillis 10) 0)
  have h₂ : Reach (fun _ _ => True) s₀ s₂ :=
    ((h₁.tail (.add trivial)).tail (.remove 7)).tail (.add trivial)
  have h₃ : Reach (fun _ _ => True) s₀ s₃ := h₂.tail (.call "first" (.ofMillis 10) 0)
  have h₄ : Reach (fun _ _ => True) s₀ s₄ := h₃.tail (.withdraw "third")
  exact ⟨h₄.tail (.call "second" (.ofMillis 10) 0), by decide, by decide, by decide⟩

end ConsensusCore.Pool.Lending
