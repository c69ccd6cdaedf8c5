import ConsensusCore.Concurrency.Simulation
import ConsensusCore.Proofs.Keys
import Mathlib.Logic.Relation

/-!
# Interleavings

What callers of a primitive can do, and what can happen to them, comes in atomic steps
(`Simulation.Step`): an action, a call with its first poll, another poll of a call that
waits, a withdrawal, a step of the work besides the calls, and the passing of time. The
steps come in any order, so that all interleavings are among the sequences of steps.

* `Invariant.reach`: what each step keeps for the primitive and the one call that it is
  about holds in whatever is reached;
* `reach_move`, `reach_advance`, `reach_settle`: carrying out a step, letting time pass and
  doing all that can be done are sequences of such steps;
* `rest_settleWithin`: a primitive that is only worked on comes to rest.
-/

namespace ConsensusCore.Simulation

variable {σ α ρ κ ε : Type} [Primitive σ α ρ κ ε]

/-- What can happen next, in any order. The calls that are made are `new` ones. -/
inductive Step (new : κ → Prop) (s : Simulation σ κ ε) : Simulation σ κ ε → Prop
  | act (a : α) : Step new s (s.act a).2
  | call (name : String) {c : κ} : new c → Step new s (s.call name c).2
  | withdraw {name : String} {s' : Simulation σ κ ε} : s.withdraw? name = some s' → Step new s s'
  | poll {caller : Caller} {s' : Simulation σ κ ε} : s.poll caller = some s' → Step new s s'
  | work {s' : Simulation σ κ ε} : s.work = some s' → Step new s s'
  | wait (ms : Nat) : Step new s { s with now := s.now + ms }

/-- What can have happened after any number of steps. -/
abbrev Reach (new : κ → Prop) : Simulation σ κ ε → Simulation σ κ ε → Prop :=
  Relation.ReflTransGen (Step new)

variable {new : κ → Prop} {s s' : Simulation σ κ ε} {caller : Caller} {name : String} {c : κ}

/-! ## One call among others -/

/-- Every call that waits has a number of its own, and the next one will have, too. -/
structure Distinct (s : Simulation σ κ ε) : Prop where
  nodup : (s.calls.map (·.1.number)).Nodup
  lt : ∀ e ∈ s.calls, e.1.number < s.nextCall

omit [Primitive σ α ρ κ ε] in
theorem distinct_start (state : σ) : (start state : Simulation σ κ ε).Distinct :=
  ⟨List.nodup_nil, fun _ he => absurd he List.not_mem_nil⟩

omit [Primitive σ α ρ κ ε] in
theorem Distinct.keys (hd : s.Distinct) : (s.calls.map (·.1)).Nodup :=
  .of_map (·.number) (List.map_map (f := Prod.fst) ▸ hd.nodup)

omit [Primitive σ α ρ κ ε] in
/-- No other call has the number of a call that waits. -/
theorem Distinct.split (hd : s.Distinct) (hc : (caller, c) ∈ s.calls) :
    ∃ before after, s.calls = before ++ (caller, c) :: after ∧
      (∀ e ∈ before, e.1 ≠ caller) ∧ ∀ e ∈ after, e.1 ≠ caller :=
  split_of_mem hd.keys hc

omit [Primitive σ α ρ κ ε] in
/-- Taking out what a caller waits for takes out one call. -/
theorem Distinct.filter (hd : s.Distinct) (hc : (caller, c) ∈ s.calls) :
    ∃ before after, s.calls = before ++ (caller, c) :: after ∧
      (s.calls.filter fun c => !(c.1 == caller)) = before ++ after :=
  filter_of_mem hd.keys hc

omit [Primitive σ α ρ κ ε] in
theorem filterMap_of_ne (rest : Option κ) {calls : List (Caller × κ)}
    (hcalls : ∀ e ∈ calls, e.1 ≠ caller) :
    calls.filterMap (fun c => if c.1 == caller then rest.map (caller, ·) else some c) = calls := by
  induction calls with
  | nil => rfl
  | cons e calls ih =>
    rw [List.filterMap_cons, if_neg (by simp [hcalls e List.mem_cons_self]),
      ih fun e' he' => hcalls e' (List.mem_cons_of_mem _ he')]

/-- A poll is about one call. It changes the primitive, and the call or its end. -/
theorem Distinct.poll (hd : s.Distinct) (h : s.poll caller = some s') :
    ∃ before c after p, s.calls = before ++ (caller, c) :: after ∧
      Primitive.poll s.moment caller c s.state = some p ∧
      s' = { s with
        state := p.state
        calls := before ++ ((p.rest.map (caller, ·)).toList ++ after)
        log := s.log ++ p.events.map (s.now, ·) } := by
  simp only [Simulation.poll, Option.bind_eq_bind, Option.bind_eq_some_iff] at h
  obtain ⟨c, hc, p, hp, hs'⟩ := h
  obtain ⟨before, after, hcalls, hbefore, hafter⟩ := hd.split (mem_of_lookup hc)
  refine ⟨before, c, after, p, hcalls, hp, ?_⟩
  rw [← Option.some.inj hs', hcalls, List.filterMap_append, filterMap_of_ne p.rest hbefore,
    List.filterMap_cons, filterMap_of_ne p.rest hafter]
  cases hr : p.rest <;> simp [record]

/-- A withdrawal takes one call away. -/
theorem Distinct.withdraw (hd : s.Distinct) (h : s.withdraw? name = some s') :
    ∃ before caller c after, s.calls = before ++ (caller, c) :: after ∧ s' = { s with
      state := Primitive.withdraw caller c s.state
      calls := before ++ after } := by
  obtain ⟨⟨caller, c⟩, hc, hs'⟩ := Option.map_eq_some_iff.1 h
  obtain ⟨before, after, hcalls, hrest⟩ := hd.filter (List.mem_of_find?_eq_some hc)
  refine ⟨before, caller, c, after, hcalls, ?_⟩
  dsimp only at hs'
  rw [← hs', hrest]

/-- A call is put at the end of those that wait, and then polled. -/
theorem call_eq (s : Simulation σ κ ε) (name : String) (c : κ) :
    ∃ caller : Caller, caller.number = s.nextCall ∧
      ((s.call name c).2 = { s with
          calls := s.calls ++ [(caller, c)]
          nextCall := s.nextCall + 1 } ∨
        Simulation.poll { s with
          calls := s.calls ++ [(caller, c)]
          nextCall := s.nextCall + 1 } caller = some (s.call name c).2) := by
  refine ⟨⟨name, s.nextCall⟩, rfl, ?_⟩
  simp only [call]
  cases h : Simulation.poll { s with
    calls := s.calls ++ [((⟨name, s.nextCall⟩ : Caller), c)]
    nextCall := s.nextCall + 1 } ⟨name, s.nextCall⟩ with
  | none => exact .inl rfl
  | some s' => exact .inr rfl

omit [Primitive σ α ρ κ ε] in
theorem Distinct.append (hd : s.Distinct) (hcaller : caller.number = s.nextCall) :
    Distinct { s with calls := s.calls ++ [(caller, c)], nextCall := s.nextCall + 1 } := by
  refine ⟨?_, fun e he => ?_⟩
  · rw [List.map_append, List.nodup_append]
    refine ⟨hd.nodup, List.nodup_singleton _, ?_⟩
    rintro n hn m hm rfl
    obtain ⟨e, he, rfl⟩ := List.mem_map.1 hn
    have := hd.lt e he
    rw [List.map_singleton, List.mem_singleton, hcaller] at hm
    omega
  · rcases List.mem_append.1 he with he | he
    · exact Nat.lt_succ_of_lt (hd.lt e he)
    · rw [List.mem_singleton.1 he, hcaller]
      exact Nat.lt_succ_self _

omit [Primitive σ α ρ κ ε] in
theorem Distinct.sublist (hd : s.Distinct)
    (hcalls : (s'.calls.map (·.1)).Sublist (s.calls.map (·.1)))
    (hnext : s'.nextCall = s.nextCall) : s'.Distinct := by
  refine ⟨?_, fun e he => ?_⟩
  · have := hcalls.map Caller.number
    rw [List.map_map, List.map_map] at this
    exact hd.nodup.sublist this
  · obtain ⟨e', he', heq⟩ := List.mem_map.1 (hcalls.subset (List.mem_map_of_mem he))
    rw [hnext, ← heq]
    exact hd.lt e' he'

theorem Distinct.after_poll (hd : s.Distinct) (h : s.poll caller = some s') : s'.Distinct := by
  obtain ⟨before, c, after, p, hcalls, -, rfl⟩ := hd.poll h
  refine hd.sublist ?_ rfl
  simp only [hcalls, List.map_append, List.map_cons]
  cases p.rest with
  | none => exact (List.Sublist.refl _).append (List.sublist_cons_self _ _)
  | some c' => exact List.Sublist.refl _

/-- A call that does not just have to wait is polled. -/
theorem Distinct.poll_of_mem (hd : s.Distinct) (hc : (caller, c) ∈ s.calls) {p : Polled σ κ ε}
    (hp : Primitive.poll s.moment caller c s.state = some p) :
    ∃ before after, s.calls = before ++ (caller, c) :: after ∧ s.poll caller = some { s with
      state := p.state
      calls := before ++ ((p.rest.map (caller, ·)).toList ++ after)
      log := s.log ++ p.events.map (s.now, ·) } := by
  have hpoll : ∃ s', s.poll caller = some s' := by
    simp only [Simulation.poll, lookup_of_mem hd.keys hc, Option.bind_eq_bind, Option.bind_some, hp]
    exact ⟨_, rfl⟩
  obtain ⟨s', hs'⟩ := hpoll
  obtain ⟨before, c', after, p', hcalls, hp', rfl⟩ := hd.poll hs'
  have hmem : (caller, c') ∈ s.calls := hcalls ▸ List.mem_append_right _ List.mem_cons_self
  obtain rfl : c = c' := Option.some.inj
    ((lookup_of_mem hd.keys hc).symm.trans (lookup_of_mem hd.keys hmem))
  obtain rfl : p = p' := Option.some.inj (hp.symm.trans hp')
  exact ⟨before, after, hcalls, hs'⟩

/-- What a call comes to that does not just have to wait when it is made. -/
theorem Distinct.call_of_poll (hd : s.Distinct) {p : Polled σ κ ε}
    (hp : Primitive.poll s.moment ⟨name, s.nextCall⟩ c s.state = some p) :
    s.call name c = (p.rest.isNone, { s with
      state := p.state
      calls := s.calls ++ (p.rest.map ((⟨name, s.nextCall⟩ : Caller), ·)).toList
      nextCall := s.nextCall + 1
      log := s.log ++ p.events.map (s.now, ·) }) := by
  have hne : ∀ e ∈ s.calls, e.1 ≠ ⟨name, s.nextCall⟩ := fun e he heq =>
    absurd (hd.lt e he) (heq ▸ Nat.lt_irrefl _)
  have hmem : ((⟨name, s.nextCall⟩ : Caller), c) ∈ s.calls ++ [(⟨name, s.nextCall⟩, c)] :=
    List.mem_append_right _ (List.mem_singleton_self _)
  have happend : Distinct { s with
      calls := s.calls ++ [((⟨name, s.nextCall⟩ : Caller), c)]
      nextCall := s.nextCall + 1 } := hd.append rfl
  have hlookup := lookup_of_mem happend.keys hmem
  have hnone : s.calls.any (·.1 == ⟨name, s.nextCall⟩) = false :=
    List.any_eq_false.2 fun e he => by simpa using hne e he
  have hpoll : (Simulation.poll { s with
      calls := s.calls ++ [((⟨name, s.nextCall⟩ : Caller), c)]
      nextCall := s.nextCall + 1 } ⟨name, s.nextCall⟩) = some { s with
        state := p.state
        calls := s.calls ++ (p.rest.map ((⟨name, s.nextCall⟩ : Caller), ·)).toList
        nextCall := s.nextCall + 1
        log := s.log ++ p.events.map (s.now, ·) } := by
    have hp' : Primitive.poll (moment { s with
        calls := s.calls ++ [((⟨name, s.nextCall⟩ : Caller), c)]
        nextCall := s.nextCall + 1 }) ⟨name, s.nextCall⟩ c s.state = some p := hp
    simp only [Simulation.poll, hlookup, Option.bind_eq_bind, Option.bind_some, hp',
      List.filterMap_append, filterMap_of_ne p.rest hne]
    cases p.rest <;> simp [record]
  simp only [call, hpoll, Option.getD_some, waits, List.any_append, hnone, Bool.false_or]
  cases p.rest <;> simp

/-! ## Invariants -/

/-- A property of the primitive, the calls that wait and the number of calls that have been
    made, which every step keeps. -/
structure Invariant (new : κ → Prop) (P : σ → List (Caller × κ) → Nat → Prop) : Prop where
  act : ∀ {st calls n} (now : Nat) (a : α), P st calls n → P (Primitive.act now a st).2 calls n
  call : ∀ {st calls n} (caller : Caller) {c : κ}, new c → P st calls n →
    P st (calls ++ [(caller, c)]) (n + 1)
  poll : ∀ {st n before caller c after p} (now : Nat), Primitive.poll now caller c st = some p →
    P st (before ++ (caller, c) :: after) n →
    P p.state (before ++ ((p.rest.map (caller, ·)).toList ++ after)) n
  withdraw : ∀ {st n before caller c after}, P st (before ++ (caller, c) :: after) n →
    P (Primitive.withdraw caller c st) (before ++ after) n
  work : ∀ {st calls n st' events} (now : Nat), Primitive.work now st = some (st', events) →
    P st calls n → P st' calls n

variable {P : σ → List (Caller × κ) → Nat → Prop}

theorem Invariant.after_poll (hP : Invariant new P) (hd : s.Distinct)
    (hs : P s.state s.calls s.nextCall) (h : s.poll caller = some s') :
    P s'.state s'.calls s'.nextCall := by
  obtain ⟨before, c, after, p, hcalls, hp, rfl⟩ := hd.poll h
  exact hP.poll _ hp (hcalls ▸ hs)

theorem Invariant.step (hP : Invariant new P) (hd : s.Distinct)
    (hs : P s.state s.calls s.nextCall) (h : Step new s s') :
    s'.Distinct ∧ P s'.state s'.calls s'.nextCall := by
  cases h with
  | act a => exact ⟨⟨hd.nodup, hd.lt⟩, hP.act _ a hs⟩
  | @call name c hc =>
    obtain ⟨caller, hcaller, heq | hpoll⟩ := s.call_eq name c
    · rw [heq]
      exact ⟨hd.append hcaller, hP.call caller hc hs⟩
    · exact ⟨(hd.append hcaller).after_poll hpoll,
        hP.after_poll (hd.append hcaller) (hP.call caller hc hs) hpoll⟩
  | withdraw h =>
    obtain ⟨before, caller, c, after, hcalls, rfl⟩ := hd.withdraw h
    refine ⟨hd.sublist ?_ rfl, hP.withdraw (hcalls ▸ hs)⟩
    rw [hcalls, List.map_append, List.map_append]
    exact (List.Sublist.refl _).append (List.sublist_cons_self _ _)
  | poll h => exact ⟨hd.after_poll h, hP.after_poll hd hs h⟩
  | work h =>
    simp only [Simulation.work, Option.bind_eq_bind, Option.bind_eq_some_iff] at h
    obtain ⟨⟨st, events⟩, hwork, hs'⟩ := h
    rw [← Option.some.inj hs']
    exact ⟨⟨hd.nodup, hd.lt⟩, hP.work _ hwork hs⟩
  | wait ms => exact ⟨⟨hd.nodup, hd.lt⟩, hs⟩

/-- Calls keep numbers of their own. -/
theorem Distinct.step (hd : s.Distinct) (h : Step new s s') : s'.Distinct :=
  (Invariant.step (P := fun _ _ _ => True)
    ⟨fun _ _ _ => trivial, fun _ _ _ _ => trivial, fun _ _ _ => trivial, fun _ => trivial,
      fun _ _ _ => trivial⟩ hd trivial h).1

/-- What every step keeps holds whatever has happened. -/
theorem Invariant.reach (hP : Invariant new P) (hd : s.Distinct)
    (hs : P s.state s.calls s.nextCall) (h : Reach new s s') :
    P s'.state s'.calls s'.nextCall := by
  suffices hall : s'.Distinct ∧ P s'.state s'.calls s'.nextCall from hall.2
  induction h with
  | refl => exact ⟨hd, hs⟩
  | tail _ hstep ih => exact hP.step ih.1 ih.2 hstep

/-! ## What is done at once -/

/-- What polling one call keeps is kept by polling all of them. -/
theorem pollAll_keeps {Q : Simulation σ κ ε → Prop}
    (hQ : ∀ {caller : Caller} {s s' : Simulation σ κ ε}, s.poll caller = some s' → Q s → Q s')
    (s : Simulation σ κ ε) (hs : Q s) : Q s.pollAll.2 := by
  have hfold : ∀ (calls : List (Caller × κ)) (p : Bool × Simulation σ κ ε), Q p.2 →
      Q (calls.foldl (fun p c => (p.2.poll c.1).elim p (true, ·)) p).2 := by
    intro calls
    induction calls with
    | nil => exact fun _ hp => hp
    | cons c calls ih =>
      intro p hp
      rw [List.foldl_cons]
      refine ih _ ?_
      cases hpoll : p.2.poll c.1 with
      | none => exact hp
      | some s' => exact hQ hpoll hp
  exact hfold s.calls (false, s) hs

theorem reach_pollAll (s : Simulation σ κ ε) : Reach new s s.pollAll.2 :=
  pollAll_keeps (fun hpoll ht => ht.tail (.poll hpoll)) s .refl

theorem reach_settleWithin (n : Nat) (s : Simulation σ κ ε) : Reach new s (settleWithin n s) := by
  induction n generalizing s with
  | zero => exact .refl
  | succ n ih =>
    have hpoll : Reach new s s.pollAll.2 := reach_pollAll s
    simp only [settleWithin]
    cases hw : s.pollAll.2.work with
    | some t => exact (hpoll.tail (.work hw)).trans (ih t)
    | none =>
      dsimp only
      split
      · exact hpoll.trans (ih _)
      · exact hpoll

/-- All that is done at a moment is done in steps. -/
theorem reach_settle (s : Simulation σ κ ε) : Reach new s s.settle :=
  reach_settleWithin _ s

theorem now_poll (h : s.poll caller = some s') : s'.now = s.now := by
  simp only [Simulation.poll, Option.bind_eq_bind, Option.bind_eq_some_iff] at h
  obtain ⟨c, -, p, -, hs'⟩ := h
  rw [← Option.some.inj hs']
  rfl

theorem now_work (h : s.work = some s') : s'.now = s.now := by
  simp only [Simulation.work, Option.bind_eq_bind, Option.bind_eq_some_iff] at h
  obtain ⟨r, -, hs'⟩ := h
  rw [← Option.some.inj hs']
  rfl

theorem now_pollAll (s : Simulation σ κ ε) : s.pollAll.2.now = s.now :=
  @pollAll_keeps _ _ _ _ _ _ (fun t => t.now = s.now) (fun hpoll ht => (now_poll hpoll).trans ht) s rfl

theorem now_settleWithin (n : Nat) (s : Simulation σ κ ε) : (settleWithin n s).now = s.now := by
  induction n generalizing s with
  | zero => rfl
  | succ n ih =>
    simp only [settleWithin]
    cases hw : s.pollAll.2.work with
    | some t => exact (ih t).trans ((now_work hw).trans s.now_pollAll)
    | none =>
      dsimp only
      split
      · exact (ih _).trans s.now_pollAll
      · exact s.now_pollAll

theorem reach_wait {t : Nat} (h : s.now ≤ t) : Reach new s { s with now := t } := by
  have hstep : Step new s { s with now := s.now + (t - s.now) } := .wait _
  rw [Nat.add_sub_cancel' h] at hstep
  exact .single hstep

theorem reach_advanceTo (target now : Nat) (s : Simulation σ κ ε) (hnow : s.now = now)
    (hle : now ≤ target) : Reach new s (s.advanceTo target now) := by
  fun_induction advanceTo target now s with
  | case1 now s stop _ hstop ih =>
    refine ((reach_wait ?_).trans (reach_settle _)).trans (ih (now_settleWithin _ _) hstop.2)
    rw [hnow]
    exact Nat.le_of_lt hstop.1
  | case2 now s stop _ _ => exact (reach_wait (hnow ▸ hle)).trans (reach_settle _)
  | case3 now s _ => exact (reach_wait (hnow ▸ hle)).trans (reach_settle _)

/-- Time passes, and what is to be done on the way is done, in steps. -/
theorem reach_advance (s : Simulation σ κ ε) (ms : Nat) : Reach new s (s.advance ms) :=
  reach_advanceTo _ _ s rfl (Nat.le_add_right _ _)

/-- What is done to a primitive is done in steps. -/
theorem reach_move (s : Simulation σ κ ε) {m : Move α κ} (hm : ∀ name c, m = .call name c → new c) :
    Reach new s (s.move m).2 := by
  cases m with
  | act a => exact .single (.act a)
  | call name c => exact .single (.call name (hm name c rfl))
  | withdraw name =>
    simp only [move]
    cases h : s.withdraw? name with
    | none => exact .refl
    | some s' => exact .single (.withdraw h)

/-! ## Without calls -/

section Uncalled

variable {σ α ρ ε : Type} [Primitive σ α ρ Empty ε] {new : Empty → Prop}
  {s s' : Simulation σ Empty ε}

/-- What can happen next if nobody can make a call. -/
theorem Step.uncalled (h : Step new s s') :
    (∃ a, s' = (s.act a).2) ∨
    (∃ state events, Primitive.work s.moment s.state = some (state, events) ∧
      s' = { s with state }.record events) ∨
    ∃ ms, s' = { s with now := s.now + ms } := by
  cases h with
  | act a => exact .inl ⟨a, rfl⟩
  | @call _ c _ => exact c.elim
  | withdraw hw =>
    obtain ⟨⟨-, c⟩, -⟩ := Option.map_eq_some_iff.1 hw
    exact c.elim
  | poll hp =>
    simp only [Simulation.poll, Option.bind_eq_bind, Option.bind_eq_some_iff] at hp
    obtain ⟨c, -⟩ := hp
    exact c.elim
  | work hw =>
    simp only [Simulation.work, Option.bind_eq_bind, Option.bind_eq_some_iff] at hw
    obtain ⟨⟨state, events⟩, hwork, hs'⟩ := hw
    exact .inr (.inl ⟨state, events, hwork, (Option.some.inj hs').symm⟩)
  | wait ms => exact .inr (.inr ⟨ms, rfl⟩)

/-- Work of which each step leaves less to do is done after as many steps. -/
theorem rest_settleWithin (effort : Nat → σ → Nat)
    (heffort : ∀ {now : Nat} {state state' : σ} {events : List ε},
      Primitive.work now state = some (state', events) → effort now state' < effort now state)
    (n : Nat) (s : Simulation σ Empty ε) (hn : effort s.moment s.state < n) :
    Primitive.work s.moment (settleWithin n s).state = none := by
  induction n generalizing s with
  | zero => exact absurd hn (Nat.not_lt_zero _)
  | succ n ih =>
    have hcalls : s.calls = [] := List.eq_nil_iff_forall_not_mem.2 fun c _ => c.2.elim
    have hpoll : s.pollAll = (false, s) := by simp only [pollAll, hcalls, List.foldl_nil]
    simp only [settleWithin, hpoll]
    cases hw : s.work with
    | some s' =>
      have hmoment : s'.moment = s.moment := congrArg Moment.ofMillis (now_work hw)
      simp only [Simulation.work, Option.bind_eq_bind, Option.bind_eq_some_iff] at hw
      obtain ⟨⟨state, events⟩, hwork, hs'⟩ := hw
      rw [← hmoment]
      refine ih s' (Nat.lt_of_lt_of_le ?_ (Nat.le_of_lt_succ hn))
      rw [hmoment, ← Option.some.inj hs']
      exact heffort hwork
    | none =>
      simp only [Simulation.work, Option.bind_eq_bind, Option.bind_eq_none_iff] at hw
      cases hwork : Primitive.work s.moment s.state with
      | none => exact hwork
      | some r => exact absurd (hw r hwork) (by simp)

end Uncalled

end ConsensusCore.Simulation
