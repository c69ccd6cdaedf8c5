import ConsensusCore.Net.Exchange
import ConsensusCore.Proofs.Keys
import ConsensusCore.Proofs.Net.Connection

/-!
# What comes of an exchange

Many connections lead to one listener, and what is sent on them comes in any order. On each
of them the pieces that are carried make up a stream (`Exchange.pieces`, `Piece.stream`), and
of what a listener gets (`Exchange.arrivals`), taken or not, a part has come on each of them.

* `Carries.run`: what each action keeps: the receiving end of every connection is what its
  stream has made of it, and what has come on it are the messages in the frames of the stream;
* `Exchange.delivers`: so it is whatever is done.
-/

namespace ConsensusCore

/-- A piece of the stream on a connection. -/
structure Piece where
  /-- The number of the connection. -/
  source : Nat
  /-- The number of the listener. -/
  target : Nat
  bytes : Bytes

/-- What has been carried to a listener on a connection. -/
def Piece.stream (pieces : List Piece) (source target : Nat) : Bytes :=
  (pieces.filter fun p => p.source = source ∧ p.target = target).flatMap (·.bytes)

/-- The messages that have come on a connection. -/
def messagesOn {μ : Type} (source : Nat) (arrivals : List (InboundMessage μ)) : List μ :=
  (arrivals.filter (·.source = source)).map (·.message)

/-- The listener that an action takes messages from. -/
def ExchangeAction.takesFrom {μ : Type} : ExchangeAction μ → Option Nat
  | .receive target => some target
  | .drain target => some target
  | _ => none

/-- The messages in an answer. -/
def ExchangeAnswer.contents {μ : Type} : ExchangeAnswer μ → List μ
  | .message m => [m]
  | .messages ms => ms
  | _ => []

namespace Exchange

variable {μ : Type}

/-! ## Pieces and arrivals -/

/-- The piece that is carried on the connection with a name. -/
def carriedAlong (x : Exchange μ) (id : String) (bs : Bytes) : List Piece :=
  ((x.connections.lookup id).map fun l => ⟨l.number, l.target, bs⟩).toList

/-- The pieces that are carried to several peers, each on a connection of its own. -/
def carriedEach (x : Exchange μ) (bs : Bytes) : List Nat → List Piece
  | [] => []
  | peer :: peers =>
    match x.sendAlone peer bs with
    | .ok x' => ⟨x.nextConnection, peer, bs⟩ :: x'.carriedEach bs peers
    | .error _ => x.carriedEach bs peers

/-- What an action takes from a listener. -/
def taken (x : Exchange μ) (target : Nat) : ExchangeAction μ → List (InboundMessage μ)
  | .receive t => if t = target then (x.inbound target).take 1 else []
  | .drain t => if t = target then x.inbound target else []
  | _ => []

section Streams

variable {x x' : Exchange μ} {pieces : List Piece} {before : Nat → List (InboundMessage μ)}
  {source target : Nat} {id : String} {bs : Bytes}

theorem messagesOn_append (source : Nat) (l l' : List (InboundMessage μ)) :
    messagesOn source (l ++ l') = messagesOn source l ++ messagesOn source l' := by
  rw [messagesOn, List.filter_append, List.map_append]
  rfl

theorem messagesOn_arriving (source source' : Nat) (ms : List μ) :
    messagesOn source' (ms.map (⟨·, source⟩)) = if source = source' then ms else [] := by
  rw [messagesOn, List.filter_map, List.map_map]
  split
  next heq =>
    subst heq
    simp [Function.comp_def]
  next hne => simp [Function.comp_def, hne]

theorem stream_append (pieces : List Piece) (p : Piece) (source target : Nat) :
    Piece.stream (pieces ++ [p]) source target = Piece.stream pieces source target ++
      if p.source = source ∧ p.target = target then p.bytes else [] := by
  rw [Piece.stream, List.filter_append, List.flatMap_append]
  by_cases h : p.source = source ∧ p.target = target
  · rw [if_pos h, List.filter_cons, if_pos (decide_eq_true h), List.filter_nil,
      List.flatMap_singleton]
    rfl
  · rw [if_neg h, List.filter_cons, if_neg (by simpa using h), List.filter_nil, List.flatMap_nil]
    rfl

theorem stream_eq_nil (h : ∀ p ∈ pieces, p.source ≠ source) :
    Piece.stream pieces source target = [] := by
  rw [Piece.stream, List.filter_eq_nil_iff.2, List.flatMap_nil]
  intro p hp
  simp [h p hp]

theorem inbound_modify (x : Exchange μ) (target : Nat) (f : Listener μ → Listener μ) (t : Nat) :
    { x with listeners := x.listeners.modify target f }.inbound t =
      if target = t then ((x.listeners[t]?).map fun l => (f l).inbound).getD []
      else x.inbound t := by
  by_cases heq : target = t
  · simp only [inbound, List.getElem?_modify, if_pos heq, Option.map_eq_map, Option.map_map,
      Function.comp_def]
  · simp only [inbound, List.getElem?_modify, if_neg heq, id_map']

theorem inbound_arrive (x : Exchange μ) (source : Nat) (bodies : List Bytes)
    (ht : target < x.listeners.length) (t : Nat) :
    (x.arrive source target bodies).inbound t = x.inbound t ++
      if target = t then (Connection.messages x.registry bodies).map (⟨·, source⟩) else [] := by
  rw [arrive, inbound_modify]
  split
  next heq =>
    subst heq
    simp only [inbound, List.getElem?_eq_getElem ht, Option.map_some, Option.getD_some]
  next => rw [List.append_nil]

theorem inbound_setInbound (x : Exchange μ) (target : Nat) (l : List (InboundMessage μ)) (t : Nat) :
    (x.setInbound target l).inbound t =
      if target = t then if t < x.listeners.length then l else [] else x.inbound t := by
  rw [setInbound, inbound_modify]
  split
  next =>
    split
    next ht => rw [List.getElem?_eq_getElem ht, Option.map_some, Option.getD_some]
    next ht => rw [List.getElem?_eq_none (Nat.not_lt.1 ht), Option.map_none, Option.getD_none]
  next => rfl

/-! ## What actions keep -/

/-- What holds after pieces have been carried and messages taken: every receiving end is as its
    stream has left it, and what has come are the messages of the streams. -/
structure Carries (x : Exchange μ) (pieces : List Piece)
    (before : Nat → List (InboundMessage μ)) : Prop where
  ids : (x.connections.map (·.1)).Nodup
  numbers : (x.connections.map (·.2.number)).Nodup
  lt : ∀ e ∈ x.connections, e.2.number < x.nextConnection
  listening : ∀ e ∈ x.connections, e.2.target < x.listeners.length
  carried : ∀ p ∈ pieces, p.source < x.nextConnection
  receiver : ∀ e ∈ x.connections, e.2.receiver =
    Connection.after x.maxMessageSize (Piece.stream pieces e.2.number e.2.target)
  arrived : ∀ target source, messagesOn source (before target ++ x.inbound target) =
    Connection.messages x.registry
      (Frame.split x.maxMessageSize (Piece.stream pieces source target)).1

namespace Carries

theorem new (reachable : Bool) (r : Registry μ) (max n : Nat) :
    (Exchange.new reachable r max n).Carries [] fun _ => [] := by
  refine ⟨List.nodup_nil, List.nodup_nil, ?_, ?_, ?_, ?_, fun target source => ?_⟩
  · exact fun _ he => absurd he List.not_mem_nil
  · exact fun _ he => absurd he List.not_mem_nil
  · exact fun _ hp => absurd hp List.not_mem_nil
  · exact fun _ he => absurd he List.not_mem_nil
  · have hempty : (Exchange.new reachable r max n).inbound target = [] := by
      simp only [inbound, Exchange.new, List.getElem?_replicate]
      split <;> rfl
    rw [hempty, stream_eq_nil fun _ hp => absurd hp List.not_mem_nil, Frame.split_nil]
    rfl

/-- When a piece is carried to a receiving end, the messages of its stream come. -/
theorem pass (h : x.Carries pieces before) {c : Connection} (ht : target < x.listeners.length)
    (hc : c = Connection.after x.maxMessageSize (Piece.stream pieces source target)) (bs : Bytes)
    (target' source' : Nat) :
    messagesOn source' (before target' ++
        (x.arrive source target (c.feed x.maxMessageSize bs).1).inbound target') =
      Connection.messages x.registry (Frame.split x.maxMessageSize
        (Piece.stream (pieces ++ [⟨source, target, bs⟩]) source' target')).1 := by
  have harrived := h.arrived target' source'
  rw [messagesOn_append] at harrived
  rw [inbound_arrive x source _ ht, messagesOn_append, messagesOn_append,
    ← List.append_assoc, harrived, stream_append]
  by_cases heq : source = source' ∧ target = target'
  · obtain ⟨rfl, rfl⟩ := heq
    obtain ⟨hbodies, -⟩ := Connection.feed_after x.maxMessageSize (Piece.stream pieces source target) bs
    rw [if_pos rfl, if_pos ⟨rfl, rfl⟩, messagesOn_arriving, if_pos rfl, hbodies,
      Connection.messages_append, hc]
  · rw [if_neg heq, List.append_nil]
    split
    next ht' =>
      rw [messagesOn_arriving, if_neg fun hs => heq ⟨hs, ht'⟩, List.append_nil]
    next => rw [messagesOn, List.filter_nil, List.map_nil, List.append_nil]

/-- A piece on a connection that is open. -/
theorem sendAlong (h : x.Carries pieces before) (hx : x.sendAlong id bs = some x') :
    x'.Carries (pieces ++ x.carriedAlong id bs) before := by
  obtain ⟨l, hlookup, hx'⟩ := Option.map_eq_some_iff.1 hx
  have hcarried : x.carriedAlong id bs = [⟨l.number, l.target, bs⟩] := by
    rw [carriedAlong, hlookup]
    rfl
  let fed : Link := { l with receiver := (l.receiver.feed x.maxMessageSize bs).2 }
  obtain ⟨front, back, hconnections, hfed⟩ := replace_of_lookup h.ids hlookup fed
  have hl : (id, l) ∈ x.connections :=
    hconnections ▸ List.mem_append_right _ List.mem_cons_self
  -- the other connections have other numbers, so that their streams are as before
  have hothers : ∀ e ∈ front ++ (id, fed) :: back,
      e = (id, fed) ∨ e ∈ x.connections ∧ e.2.number ≠ l.number := by
    intro e he
    have hnumbers := h.numbers
    rw [hconnections, List.map_append, List.map_cons, List.nodup_middle, ← List.map_append,
      List.nodup_cons] at hnumbers
    have hne : e ∈ front ++ back → e.2.number ≠ l.number := fun hmem heq =>
      hnumbers.1 (List.mem_map.2 ⟨e, hmem, heq⟩)
    rw [hconnections]
    rcases List.mem_append.1 he with he | he
    · exact .inr ⟨List.mem_append_left _ he, hne (List.mem_append_left _ he)⟩
    · rcases List.mem_cons.1 he with rfl | he
      · exact .inl rfl
      · exact .inr ⟨List.mem_append_right _ (List.mem_cons_of_mem _ he),
          hne (List.mem_append_right _ he)⟩
  have heq : x' = { x with connections := front ++ (id, fed) :: back }.arrive l.number l.target
      (l.receiver.feed x.maxMessageSize bs).1 := by
    rw [← hx', ← hfed]
  have hids := h.ids
  have hnumbers := h.numbers
  rw [hconnections, List.map_append, List.map_cons] at hids hnumbers
  have hlt := h.lt _ hl
  have hlistening := h.listening _ hl
  rw [hcarried, heq]
  refine ⟨?_, ?_, fun e he => ?_, fun e he => ?_, fun p hp => ?_, fun e he => ?_,
    h.pass hlistening (h.receiver _ hl) bs⟩
  · change ((front ++ (id, fed) :: back).map (·.1)).Nodup
    rwa [List.map_append, List.map_cons]
  · change ((front ++ (id, fed) :: back).map (·.2.number)).Nodup
    rwa [List.map_append, List.map_cons]
  · rcases hothers e he with rfl | ⟨he, -⟩
    · exact hlt
    · exact h.lt e he
  · simp only [arrive, List.length_modify]
    rcases hothers e he with rfl | ⟨he, -⟩
    · exact hlistening
    · exact h.listening e he
  · rcases List.mem_append.1 hp with hp | hp
    · exact h.carried p hp
    · rw [List.mem_singleton.1 hp]
      exact hlt
  · rw [stream_append]
    rcases hothers e he with rfl | ⟨he, hne⟩
    · rw [if_pos ⟨rfl, rfl⟩]
      obtain ⟨-, hafter⟩ :=
        Connection.feed_after x.maxMessageSize (Piece.stream pieces l.number l.target) bs
      rw [← h.receiver _ hl] at hafter
      exact hafter
    · rw [if_neg fun hs => hne hs.1.symm, List.append_nil]
      exact h.receiver e he

theorem carriedAlong_eq_nil (hx : x.sendAlong id bs = none) : x.carriedAlong id bs = [] := by
  rw [carriedAlong, Option.map_eq_none_iff.1 hx]
  rfl

theorem fresh (h : x.Carries pieces before) (target : Nat) :
    Piece.stream pieces x.nextConnection target = [] :=
  stream_eq_nil fun p hp => Nat.ne_of_lt (h.carried p hp)

theorem lt_of_link (hlink : x.link target = .ok ()) : target < x.listeners.length := by
  simp only [link] at hlink
  split at hlink
  next => cases hlink
  next =>
    split at hlink
    next hl => exact (List.getElem?_eq_some_iff.1 hl).1
    next => cases hlink

/-- A piece that has a connection of its own. -/
theorem sendAlone (h : x.Carries pieces before) (hx : x.sendAlone target bs = .ok x') :
    x'.Carries (pieces ++ [⟨x.nextConnection, target, bs⟩]) before := by
  simp only [Exchange.sendAlone] at hx
  rcases hlink : x.link target with e | ⟨⟩ <;> rw [hlink] at hx <;> cases hx
  have hnew : Connection.new = Connection.after x.maxMessageSize
      (Piece.stream pieces x.nextConnection target) := by
    rw [h.fresh, Connection.after_nil]
  refine ⟨h.ids, h.numbers, fun e he => Nat.lt_succ_of_lt (h.lt e he), fun e he => ?_,
    fun p hp => ?_, fun e he => ?_, h.pass (lt_of_link hlink) hnew bs⟩
  · simp only [arrive, List.length_modify]
    exact h.listening e he
  · rcases List.mem_append.1 hp with hp | hp
    · exact Nat.lt_succ_of_lt (h.carried p hp)
    · rw [List.mem_singleton.1 hp]
      exact Nat.lt_succ_self _
  · rw [stream_append, if_neg fun hs => (Nat.ne_of_lt (h.lt e he)) hs.1.symm, List.append_nil]
    exact h.receiver e he

theorem sendEach (h : x.Carries pieces before) (bs : Bytes) (peers : List Nat) :
    (x.sendEach bs peers).2.Carries (pieces ++ x.carriedEach bs peers) before := by
  induction peers generalizing x pieces with
  | nil =>
    rw [carriedEach, List.append_nil]
    exact h
  | cons peer peers ih =>
    simp only [Exchange.sendEach, carriedEach]
    rcases hx : x.sendAlone peer bs with e | x'
    · exact ih h
    · dsimp only
      rw [← List.singleton_append, ← List.append_assoc]
      exact ih (h.sendAlone hx)

/-- Connections can end. -/
theorem filter (h : x.Carries pieces before) (p : String × Link → Bool) :
    { x with connections := x.connections.filter p }.Carries pieces before := by
  have hsub : (x.connections.filter p).Sublist x.connections := List.filter_sublist
  exact ⟨h.ids.sublist (hsub.map _), h.numbers.sublist (hsub.map _),
    fun e he => h.lt e (hsub.subset he), fun e he => h.listening e (hsub.subset he), h.carried,
    fun e he => h.receiver e (hsub.subset he), h.arrived⟩

/-- A new connection. -/
theorem connect (h : x.Carries pieces before) (hid : id ∉ x.connections.map (·.1))
    (ht : target < x.listeners.length) :
    { x with
      connections := x.connections ++ [(id, (⟨x.nextConnection, target, .new⟩ : Link))]
      nextConnection := x.nextConnection + 1 }.Carries pieces before := by
  have hnumber : x.nextConnection ∉ x.connections.map (·.2.number) := by
    intro hmem
    obtain ⟨e, he, heq⟩ := List.mem_map.1 hmem
    exact Nat.ne_of_lt (h.lt e he) heq
  have hcases : ∀ e ∈ x.connections ++ [(id, (⟨x.nextConnection, target, .new⟩ : Link))],
      e ∈ x.connections ∨ e = (id, ⟨x.nextConnection, target, .new⟩) := fun e he =>
    (List.mem_append.1 he).imp_right List.mem_singleton.1
  refine ⟨?_, ?_, fun e he => ?_, fun e he => ?_, fun p hp => Nat.lt_succ_of_lt (h.carried p hp),
    fun e he => ?_, h.arrived⟩
  · rw [List.map_append, List.map_singleton]
    exact (List.perm_append_singleton _ _).nodup_iff.2 (List.nodup_cons.2 ⟨hid, h.ids⟩)
  · rw [List.map_append, List.map_singleton]
    exact (List.perm_append_singleton _ _).nodup_iff.2 (List.nodup_cons.2 ⟨hnumber, h.numbers⟩)
  · rcases hcases e he with he | rfl
    · exact Nat.lt_succ_of_lt (h.lt e he)
    · exact Nat.lt_succ_self _
  · rcases hcases e he with he | rfl
    · exact h.listening e he
    · exact ht
  · rcases hcases e he with he | rfl
    · exact h.receiver e he
    · dsimp only
      rw [h.fresh, Connection.after_nil]

theorem listeners (h : x.Carries pieces before) {listeners : List (Listener μ)}
    {before' : Nat → List (InboundMessage μ)} (hlength : listeners.length = x.listeners.length)
    (hinbound : ∀ t, before' t ++ { x with listeners }.inbound t = before t ++ x.inbound t) :
    { x with listeners }.Carries pieces before' := by
  refine ⟨h.ids, h.numbers, h.lt, fun e he => ?_, h.carried, h.receiver, fun target source => ?_⟩
  · dsimp only
    rw [hlength]
    exact h.listening e he
  · rw [hinbound]
    exact h.arrived target source

/-- What is taken has come before. -/
theorem take (h : x.Carries pieces before) {l l' : List (InboundMessage μ)}
    (hl : x.inbound target = l ++ l') :
    (x.setInbound target l').Carries pieces fun t => before t ++ if target = t then l else [] := by
  refine h.listeners (List.length_modify ..) fun t => ?_
  change _ ++ (x.setInbound target l').inbound t = _
  rw [inbound_setInbound, List.append_assoc]
  congr 1
  by_cases heq : target = t
  · subst heq
    rw [if_pos rfl, if_pos rfl]
    split
    next => exact hl.symm
    next ht =>
      have hnil : x.inbound target = [] := by
        rw [inbound, List.getElem?_eq_none (Nat.not_lt.1 ht)]
        rfl
      rw [hnil, List.nil_eq, List.append_eq_nil_iff] at hl
      rw [hl.1, hnil, List.append_nil]
  · rw [if_neg heq, if_neg heq, List.nil_append]

end Carries

theorem settings_sendAlong (hx : x.sendAlong id bs = some x') :
    x'.registry = x.registry ∧ x'.maxMessageSize = x.maxMessageSize := by
  obtain ⟨l, -, rfl⟩ := Option.map_eq_some_iff.1 hx
  exact ⟨rfl, rfl⟩

theorem settings_sendAlone (hx : x.sendAlone target bs = .ok x') :
    x'.registry = x.registry ∧ x'.maxMessageSize = x.maxMessageSize := by
  simp only [sendAlone] at hx
  rcases hlink : x.link target with e | ⟨⟩ <;> rw [hlink] at hx <;> cases hx
  exact ⟨rfl, rfl⟩

theorem settings_sendEach (x : Exchange μ) (bs : Bytes) (peers : List Nat) :
    (x.sendEach bs peers).2.registry = x.registry ∧
      (x.sendEach bs peers).2.maxMessageSize = x.maxMessageSize := by
  induction peers generalizing x with
  | nil => exact ⟨rfl, rfl⟩
  | cons peer peers ih =>
    simp only [sendEach]
    rcases hx : x.sendAlone peer bs with e | x'
    · exact ih x
    · obtain ⟨hregistry, hmax⟩ := settings_sendAlone hx
      rw [← hregistry, ← hmax]
      exact ih x'

end Streams

/-! ## Runs -/

variable [Coded μ]

/-- The exchange after some actions. -/
def after (x : Exchange μ) : List (ExchangeAction μ) → Exchange μ
  | [] => x
  | a :: actions => (x.run a).2.after actions

/-- The pieces that an action carries. -/
def carried (x : Exchange μ) : ExchangeAction μ → List Piece
  | .sendBytes id bs => x.carriedAlong id bs
  | .sendOn id m max =>
    match Frame.encode x.registry max m with
    | .ok bs => x.carriedAlong id bs
    | .error _ => []
  | .send target m max =>
    match Frame.encode x.registry max m with
    | .ok bs => x.carriedEach bs [target]
    | .error _ => []
  | .broadcast peers m max =>
    match Frame.encode x.registry max m with
    | .ok bs => x.carriedEach bs peers
    | .error _ => []
  | _ => []

/-- The pieces that are carried in a run. -/
def pieces (x : Exchange μ) : List (ExchangeAction μ) → List Piece
  | [] => []
  | a :: actions => x.carried a ++ (x.run a).2.pieces actions

/-- What is taken from a listener in a run. -/
def takenIn (x : Exchange μ) (target : Nat) : List (ExchangeAction μ) → List (InboundMessage μ)
  | [] => []
  | a :: actions => x.taken target a ++ (x.run a).2.takenIn target actions

/-- What has come to a listener in a run: what has been taken, and then what is left. -/
def arrivals (x : Exchange μ) (target : Nat) (actions : List (ExchangeAction μ)) :
    List (InboundMessage μ) :=
  x.takenIn target actions ++ (x.after actions).inbound target

/-- The messages in the answers to those who take from a listener. -/
def received (x : Exchange μ) (target : Nat) : List (ExchangeAction μ) → List μ
  | [] => []
  | a :: actions =>
    (if a.takesFrom = some target then (x.run a).1.contents else []) ++
      (x.run a).2.received target actions

/-- The stream on a connection in a run. -/
def stream (x : Exchange μ) (actions : List (ExchangeAction μ)) (source target : Nat) : Bytes :=
  Piece.stream (x.pieces actions) source target

variable {x : Exchange μ} {pieces : List Piece} {before : Nat → List (InboundMessage μ)}

namespace Carries

/-- Every action keeps what is to be kept. -/
theorem run (h : x.Carries pieces before) (a : ExchangeAction μ) :
    (x.run a).2.Carries (pieces ++ x.carried a) fun t => before t ++ x.taken t a := by
  cases a with
  | connect id target =>
    simp only [Exchange.run, Exchange.carried, Exchange.taken, List.append_nil]
    rcases hlink : x.link target with e | ⟨⟩
    · exact h
    · have hid : id ∉ (x.connections.filter fun e => !(e.1 == id)).map (·.1) := by
        intro hmem
        obtain ⟨e, he, heq⟩ := List.mem_map.1 hmem
        simpa [heq] using (List.mem_filter.1 he).2
      exact (h.filter fun e => !(e.1 == id)).connect hid (lt_of_link hlink)
  | sendBytes id bs =>
    simp only [Exchange.run, Exchange.carried, Exchange.taken, List.append_nil]
    rcases hx : x.sendAlong id bs with _ | x'
    · rw [carriedAlong_eq_nil hx, List.append_nil]
      exact h
    · exact h.sendAlong hx
  | sendOn id m max =>
    simp only [Exchange.run, Exchange.carried, Exchange.taken, List.append_nil]
    rcases hlookup : x.connections.lookup id with _ | l <;>
      rcases Frame.encode x.registry max m with e | bs <;> dsimp only
    · rwa [List.append_nil]
    · rwa [carriedAlong, hlookup, Option.map_none, Option.toList_none, List.append_nil]
    · rwa [List.append_nil]
    · rcases hx : x.sendAlong id bs with _ | x'
      · simp only [Exchange.sendAlong, hlookup, Option.map_some, reduceCtorEq] at hx
      · exact h.sendAlong hx
  | close id =>
    simp only [Exchange.run, Exchange.carried, Exchange.taken, List.append_nil]
    rcases x.connections.lookup id with _ | l
    · exact h
    · exact h.filter _
  | send target m max =>
    simp only [Exchange.run, Exchange.carried, Exchange.taken, List.append_nil]
    rcases Frame.encode x.registry max m with e | bs
    · exact (List.append_nil pieces).symm ▸ h
    · dsimp only [carriedEach]
      rcases hx : x.sendAlone target bs with e | x'
      · exact (List.append_nil pieces).symm ▸ h
      · exact h.sendAlone hx
  | broadcast peers m max =>
    simp only [Exchange.run, Exchange.carried, Exchange.taken, List.append_nil]
    rcases Frame.encode x.registry max m with e | bs
    · exact (List.append_nil pieces).symm ▸ h
    · exact h.sendEach bs peers
  | receive target =>
    simp only [Exchange.run, Exchange.carried, Exchange.taken, List.append_nil]
    rcases hinbound : x.inbound target with _ | ⟨m, rest⟩
    · have hnone : ∀ t, (if target = t then (x.inbound t).take 1 else []) = [] := by
        intro t
        split
        next heq => rw [← heq, hinbound, List.take_nil]
        next => rfl
      simp only [hnone, List.append_nil]
      split <;> exact h
    · have htaken : ∀ t, (if target = t then (x.inbound t).take 1 else []) =
          if target = t then [m] else [] := by
        intro t
        split
        next heq => rw [← heq, hinbound]; rfl
        next => rfl
      simp only [htaken]
      exact h.take (by rw [hinbound]; rfl)
  | drain target =>
    have htaken : ∀ t, (if target = t then x.inbound t else []) =
        if target = t then x.inbound target else [] := by
      intro t
      split
      next heq => rw [heq]
      next => rfl
    simp only [Exchange.run, Exchange.carried, Exchange.taken, List.append_nil, htaken]
    exact h.take (List.append_nil _).symm
  | shutdown target =>
    simp only [Exchange.run, Exchange.carried, Exchange.taken, List.append_nil]
    refine h.listeners (List.length_modify ..) fun t => ?_
    rw [inbound_modify, inbound]
    split <;> rfl

theorem runs (h : x.Carries pieces before) (actions : List (ExchangeAction μ)) :
    (x.after actions).Carries (pieces ++ x.pieces actions)
      fun t => before t ++ x.takenIn t actions := by
  induction actions generalizing x pieces before with
  | nil =>
    simp only [after, Exchange.pieces, takenIn, List.append_nil]
    exact h
  | cons a actions ih =>
    simp only [after, Exchange.pieces, takenIn, ← List.append_assoc]
    exact ih (h.run a)

end Carries

/-- No action changes the registry or the maximum. -/
theorem settings_run (x : Exchange μ) (a : ExchangeAction μ) :
    (x.run a).2.registry = x.registry ∧ (x.run a).2.maxMessageSize = x.maxMessageSize := by
  cases a with
  | connect id target => simp only [run]; split <;> exact ⟨rfl, rfl⟩
  | sendBytes id bs =>
    simp only [run]
    split
    next hx => exact settings_sendAlong hx
    next => exact ⟨rfl, rfl⟩
  | sendOn id m max =>
    simp only [run]
    split
    next => exact ⟨rfl, rfl⟩
    next => exact ⟨rfl, rfl⟩
    next bs _ _ =>
      rcases hx : x.sendAlong id bs with _ | x'
      · exact ⟨rfl, rfl⟩
      · exact settings_sendAlong hx
  | close id => simp only [run]; split <;> exact ⟨rfl, rfl⟩
  | send target m max =>
    simp only [run]
    split
    next => exact ⟨rfl, rfl⟩
    next =>
      split
      next hx => exact settings_sendAlone hx
      next => exact ⟨rfl, rfl⟩
  | broadcast peers m max =>
    simp only [run]
    split
    next => exact ⟨rfl, rfl⟩
    next bs _ => exact settings_sendEach x bs peers
  | receive target =>
    simp only [run]
    split
    next => exact ⟨rfl, rfl⟩
    next => split <;> exact ⟨rfl, rfl⟩
  | drain target => exact ⟨rfl, rfl⟩
  | shutdown target => exact ⟨rfl, rfl⟩

theorem settings_after (x : Exchange μ) (actions : List (ExchangeAction μ)) :
    (x.after actions).registry = x.registry ∧
      (x.after actions).maxMessageSize = x.maxMessageSize := by
  induction actions generalizing x with
  | nil => exact ⟨rfl, rfl⟩
  | cons a actions ih =>
    obtain ⟨hregistry, hmax⟩ := settings_run x a
    rw [← hregistry, ← hmax]
    exact ih (x.run a).2

/-! ## What is delivered -/

/-- An answer has the messages that are taken. -/
theorem contents_run (x : Exchange μ) (target : Nat) (a : ExchangeAction μ) :
    (if a.takesFrom = some target then (x.run a).1.contents else []) =
      (x.taken target a).map (·.message) := by
  cases a with
  | receive t =>
    by_cases heq : t = target
    · subst heq
      simp only [ExchangeAction.takesFrom, run, taken, if_true]
      rcases x.inbound t with _ | ⟨m, rest⟩
      · dsimp only
        split <;> rfl
      · rfl
    · rw [ExchangeAction.takesFrom, taken, if_neg heq,
        if_neg fun h => heq (Option.some.inj h), List.map_nil]
  | drain t =>
    by_cases heq : t = target
    · subst heq
      simp only [ExchangeAction.takesFrom, run, taken, if_true, ExchangeAnswer.contents]
    · rw [ExchangeAction.takesFrom, taken, if_neg heq,
        if_neg fun h => heq (Option.some.inj h), List.map_nil]
  | _ => rfl

/-- Those who take from a listener get the messages that are taken, in their order. -/
theorem received_eq (x : Exchange μ) (target : Nat) (actions : List (ExchangeAction μ)) :
    x.received target actions = (x.takenIn target actions).map (·.message) := by
  induction actions generalizing x with
  | nil => rfl
  | cons a actions ih => rw [received, takenIn, List.map_append, contents_run, ih]

/-- Of what is sent on a connection, cut into pieces anywhere and with pieces of other
    connections between them, the listener gets the messages in the complete frames, in their
    order, up to a length above the maximum. A body without a message ends nothing: messages
    come whatever other frames are sent among them. -/
theorem delivers (reachable : Bool) (r : Registry μ) (max n : Nat)
    (actions : List (ExchangeAction μ)) (target source : Nat) :
    (∃ bodies ending,
      Frame.Splits max ((new reachable r max n).stream actions source target) bodies ending ∧
      messagesOn source ((new reachable r max n).arrivals target actions) =
        bodies.filterMap (fun body => (Frame.decode r body).toOption) ∧
      ∀ e ∈ ((new reachable r max n).after actions).connections,
        e.2.number = source → e.2.target = target →
          (e.2.receiver.isOpen = false ↔ ending = .tooLong)) ∧
    (r.Faithful → ∀ parcels,
      Sends r max parcels ((new reachable r max n).stream actions source target) →
      messagesOn source ((new reachable r max n).arrivals target actions) =
        parcels.filterMap Parcel.message?) ∧
    (Registry.peers.Faithful ∧ (Registry.inputs Registry.peers).Faithful) ∧
    (new reachable r max n).received target actions =
      ((new reachable r max n).takenIn target actions).map (·.message) := by
  have hcarries := (Carries.new reachable r max n).runs actions
  obtain ⟨hregistry, hmax⟩ := settings_after (new reachable r max n) actions
  have harrived := hcarries.arrived target source
  rw [List.nil_append, List.nil_append, hregistry, hmax] at harrived
  refine ⟨⟨_, _, Frame.splits_split .., harrived, ?_⟩, ?_, ⟨Registry.faithful_peers,
    Registry.faithful_inputs⟩, received_eq ..⟩
  · rintro e he rfl rfl
    have hreceiver := hcarries.receiver e he
    rw [hmax] at hreceiver
    rw [hreceiver]
    exact Connection.isOpen_after ..
  · intro hr parcels hsends
    exact harrived.trans (hsends.messages hr).1

/-! ### Two connections to one listener -/

private def prevote (index : UInt32) : PeerMessage := .hasVote ⟨100, 1, .prevote, index⟩

private def prevoteFrame (index : UInt32) : Bytes := Frame.frame (prevote index).envelope

private theorem encode_prevote (index : UInt32) :
    Frame.encode Registry.peers 29 (prevote index) = .ok (prevoteFrame index) := by
  have hlength : (prevote index).envelope.length = 29 := rfl
  rw [Frame.encode, Registry.encode_peers]
  simp only [hlength, UInt32.size]
  exact if_neg (by decide)

/-- On one connection a prevote comes in two pieces, and after it a frame with nothing in it; on
    the other one a prevote comes in two pieces between which messages are taken. -/
def twoConnections : List (ExchangeAction PeerMessage) :=
  [.connect "a" 0, .connect "b" 0, .sendBytes "a" ((prevoteFrame 4).take 7),
    .sendBytes "b" ((prevoteFrame 5).take 2),
    .sendBytes "a" ((prevoteFrame 4).drop 7 ++ [0, 0, 0, 0]), .drain 0,
    .sendBytes "b" ((prevoteFrame 5).drop 2), .sendBytes "a" (prevoteFrame 6), .close "a"]

/-- All three prevotes come, with envelopes as long as the maximum, those of one connection in
    their order. -/
theorem delivers_twoConnections :
    Sends Registry.peers 29 [.message (prevote 4), .bytes [], .message (prevote 6)]
        ((new true Registry.peers 29 1).stream twoConnections 0 0) ∧
      messagesOn 0 ((new true Registry.peers 29 1).arrivals 0 twoConnections) =
        [prevote 4, prevote 6] ∧
      messagesOn 1 ((new true Registry.peers 29 1).arrivals 0 twoConnections) = [prevote 5] := by
  have hempty : Frame.decode Registry.peers [] =
      .error (.codec (.malformedEnvelope (.layout .endOfInput))) := by decide +kernel
  have hfirst : Sends Registry.peers 29 [.message (prevote 4), .bytes [], .message (prevote 6)]
      ((new true Registry.peers 29 1).stream twoConnections 0 0) := by
    have hstream : (new true Registry.peers 29 1).stream twoConnections 0 0 =
        prevoteFrame 4 ++ (Frame.frame [] ++ (prevoteFrame 6 ++ [])) := by decide +kernel
    rw [hstream]
    exact .message (encode_prevote 4) (.bytes (by decide) (by decide) hempty
      (.message (encode_prevote 6) .nil))
  have hsecond : Sends Registry.peers 29 [.message (prevote 5)]
      ((new true Registry.peers 29 1).stream twoConnections 1 0) := by
    have hstream : (new true Registry.peers 29 1).stream twoConnections 1 0 =
        prevoteFrame 5 ++ [] := by decide +kernel
    rw [hstream]
    exact .message (encode_prevote 5) .nil
  exact ⟨hfirst,
    (delivers true Registry.peers 29 1 twoConnections 0 0).2.1 Registry.faithful_peers _ hfirst,
    (delivers true Registry.peers 29 1 twoConnections 0 1).2.1 Registry.faithful_peers _ hsecond⟩

end Exchange

end ConsensusCore
