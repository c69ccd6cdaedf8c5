import ConsensusCore.Proofs.Log.Replay
import ConsensusCore.Proofs.Log.Stepping
import ConsensusCore.Proofs.Log.Tracking

/-!
# Reading on after errors

What a read comes to can be told from the position of the reader alone, if it is framed from
there: from the bytes of the segment, whatever they are, and of newer segments once there are
no more of them (`Log.framedFrom`). A reader that is in step reads just that, and stays in
step unless the bytes at the position are no record (`Misframed`); an envelope that does not
decode is passed like any other.

So until a read fails at such bytes, the position of a reader names the record that it reads
next, and it only goes forward (`Log.reads_in_step`). After that, the segment is read on from
behind the bytes that were looked at, while the position is still the one before them.
-/

namespace ConsensusCore

/-! ## Framing at a position -/

/-- The read has failed at bytes that are no record, or only the beginning of one. -/
inductive Misframed : Except LogError (Option Input) → Prop
  | record {path : String} {offset : Nat} {fault : RecordFault} :
    Misframed (.error (.corrupt path offset (.record fault)))
  | torn {path : String} {offset n : Nat} : Misframed (.error (.corrupt path offset (.torn n)))

/-- What reading from the offset `o` of the segment `i` comes to, and the position then. -/
def Log.framedFrom (log : Log) (max i o : Nat) :
    Except LogError (Option Input) × (Nat × Nat) :=
  match log.disk.fileAt (log.group.segmentRoute i) with
  | .error e => (.error (.disk e), (i, o))
  | .ok f =>
    match (Record.read max ((log.disk.content f).drop o)).1 with
    | .record bs =>
      match log.registry.decode bs with
      | .ok m => (.ok (some m), (i, o + (Record.headerLength + bs.length)))
      | .error e =>
        (.error (.corrupt (log.group.segmentText i) o (.envelope e)),
          (i, o + (Record.headerLength + bs.length)))
    | .corrupt fault =>
      (.error (.corrupt (log.group.segmentText i) o (.record fault)), (i, o))
    | .torn n =>
      if i < log.group.maxIndex then
        (.error (.corrupt (log.group.segmentText i) o (.torn n)), (i, o))
      else (.ok none, (i, o))
    | .eof =>
      if i < log.group.maxIndex then log.framedFrom max (i + 1) 0 else (.ok none, (i, o))
termination_by log.group.maxIndex - i

variable {log : Log} {r r' : Reader} {max i o : Nat} {m : Input}

/-- What a reader in step reads is framed from its position. It stays in step, unless the
    bytes there are no record: then it is left behind them. -/
theorem Reader.At.reads (h : r.At log max i o) :
    ∃ x i' o' r', log.framedFrom max i o = (x, (i', o')) ∧ log.read r = (x, r') ∧
      (¬Misframed x ∧ r'.At log max i' o' ∨ Misframed x ∧ r'.Past log max i' o') := by
  fun_induction Log.framedFrom log max i o generalizing r with
  | case1 i o e hfile =>
    obtain ⟨r', hread, hat⟩ := h.read_unreadable hfile
    exact ⟨_, i, o, r', rfl, hread, .inl ⟨by rintro ⟨⟩, hat⟩⟩
  | case2 i o f hfile bs hout m hdecode =>
    obtain ⟨r', hread, hat⟩ := h.read_message hfile hout hdecode
    exact ⟨_, i, _, r', rfl, hread, .inl ⟨by rintro ⟨⟩, hat⟩⟩
  | case3 i o f hfile bs hout e hdecode =>
    obtain ⟨r', hread, hat⟩ := h.read_undecodable hfile hout hdecode
    exact ⟨_, i, _, r', rfl, hread, .inl ⟨by rintro ⟨⟩, hat⟩⟩
  | case4 i o f hfile fault hout =>
    obtain ⟨r', hread, hpast⟩ := h.read_corrupt hfile hout
    exact ⟨_, i, o, r', rfl, hread, .inr ⟨.record, hpast⟩⟩
  | case5 i o f hfile n hout hsealed =>
    obtain ⟨r', hread, hpast⟩ := h.read_torn hfile hsealed hout
    exact ⟨_, i, o, r', rfl, hread, .inr ⟨.torn, hpast⟩⟩
  | case6 i o f hfile n hout hhead =>
    obtain ⟨r', hread, hat⟩ := h.read_wait hfile (Nat.not_lt.1 hhead) (.inr ⟨n, hout⟩)
    exact ⟨_, i, o, r', rfl, hread, .inl ⟨by rintro ⟨⟩, hat⟩⟩
  | case7 i o f hfile hout hsealed ih =>
    -- nothing is left of a sealed segment, so the next one is read
    obtain ⟨r₁, hsame, hat₁⟩ := h.read_next hfile hsealed hout
    obtain ⟨x, i', o', r', hframed, hread, hstep⟩ := ih hat₁
    exact ⟨x, i', o', r', hframed, hsame.trans hread, hstep⟩
  | case8 i o f hfile hout hhead =>
    obtain ⟨r', hread, hat⟩ := h.read_wait hfile (Nat.not_lt.1 hhead) (.inl hout)
    exact ⟨_, i, o, r', rfl, hread, .inl ⟨by rintro ⟨⟩, hat⟩⟩

/-! ## Records and places -/

/-- The first place is the second one, or before it. -/
def Precedes (p q : Nat × Nat) : Prop := p.1 < q.1 ∨ p.1 = q.1 ∧ p.2 ≤ q.2

theorem Precedes.trans {p q s : Nat × Nat} (h : Precedes p q) (h' : Precedes q s) :
    Precedes p s := by
  simp only [Precedes] at *
  omega

/-- The bytes from the offset of the record on begin with it, and it has its message. -/
def Log.Frames (log : Log) (max : Nat) (e : Entry) : Prop :=
  ∃ f bs, log.disk.fileAt (log.group.segmentRoute e.index) = .ok f ∧
    (Record.read max ((log.disk.content f).drop e.offset)).1 = .record bs ∧
    e.length = Record.headerLength + bs.length ∧ log.registry.decode bs = .ok e.message

/-- There is no byte from the first place to the second one. -/
inductive Log.Leads (log : Log) : Nat × Nat → Nat × Nat → Prop
  | here {p : Nat × Nat} : Leads log p p
  | next {i o : Nat} {f : FileId} {p : Nat × Nat} : i < log.group.maxIndex →
    log.disk.fileAt (log.group.segmentRoute i) = .ok f → (log.disk.content f).drop o = [] →
      Leads log (i + 1, 0) p → Leads log (i, o) p

theorem Log.Leads.precedes {p q : Nat × Nat} (h : log.Leads p q) : Precedes p q := by
  induction h with
  | here => exact .inr ⟨rfl, Nat.le_refl _⟩
  | next _ _ _ _ ih =>
    refine Precedes.trans (.inl ?_) ih
    exact Nat.lt_succ_self _

theorem Record.eq_nil_of_read {bs : Bytes} (h : (read max bs).1 = .eof) : bs = [] := by
  simp only [read, readFrom] at h
  split at h
  · next hempty => simpa [headerLength] using hempty
  split at h
  · cases h
  split at h
  · cases h
  split at h
  · cases h
  split at h
  · cases h
  · cases h

/-- A message that is read is that of the next record, with no byte before it, and the position
    is behind the record then. -/
theorem Log.framedFrom_message {p : Nat × Nat} (h : log.framedFrom max i o = (.ok (some m), p)) :
    ∃ e : Entry, log.Frames max e ∧ e.message = m ∧ log.Leads (i, o) e.place ∧ e.stop = p := by
  fun_induction Log.framedFrom log max i o with
  | case2 i o f hfile bs hout m' hdecode =>
    cases h
    exact ⟨⟨i, o, Record.headerLength + bs.length, m⟩, ⟨f, bs, hfile, hout, rfl, hdecode⟩, rfl,
      .here, rfl⟩
  | case7 i o f hfile hout hsealed ih =>
    obtain ⟨e, hframes, hm, hleads, hstop⟩ := ih h
    exact ⟨e, hframes, hm, .next hsealed hfile (Record.eq_nil_of_read hout) hleads, hstop⟩
  | _ => cases h

/-- The position never goes back. -/
theorem Log.precedes_framedFrom (log : Log) (max i o : Nat) :
    Precedes (i, o) (log.framedFrom max i o).2 := by
  fun_induction Log.framedFrom log max i o with
  | case2 | case3 => exact .inr ⟨rfl, Nat.le_add_right _ _⟩
  | case7 i o f hfile hout hsealed ih => exact Precedes.trans (.inl (Nat.lt_succ_self i)) ih
  | _ => exact .inr ⟨rfl, Nat.le_refl _⟩

/-! ## Reading again and again -/

/-- Reading with a reader some times, one after the other, whatever the reads come to. -/
inductive Log.Reads (log : Log) (r : Reader) :
    List (Except LogError (Option Input)) → Reader → Prop
  | start : Reads log r [] r
  | read {xs : List (Except LogError (Option Input))} {x : Except LogError (Option Input)}
      {r' r'' : Reader} :
    Reads log r xs r' → log.read r' = (x, r'') → Reads log r (xs ++ [x]) r''

/-- The messages that some reads have returned. -/
def returned (xs : List (Except LogError (Option Input))) : List Input :=
  xs.filterMap fun x => x.toOption.join

theorem Log.Starts.segment (h : log.Starts r) : r.segment = none := by
  cases h with
  | newReader hnew =>
    rw [Log.newReader] at hnew
    split at hnew
    · cases hnew
    · cases hnew
      rfl
  | search hsearch =>
    rw [Log.search] at hsearch
    split at hsearch
    · cases hsearch
    cases hfrom : log.searchFrom _ (log.group.maxIndex - log.group.minIndex) with
    | error e =>
      rw [hfrom] at hsearch
      cases hsearch
    | ok found =>
      rw [hfrom] at hsearch
      obtain ⟨_, -, hsome⟩ := Option.map_eq_some_iff.1 (Except.ok.inj hsearch)
      cases hsome
      rfl

/-- Readers are started in step. -/
theorem Log.Starts.inStep (h : log.Starts r) : r.InStep log :=
  ⟨rfl, rfl, rfl, fun seg hseg => by
    rw [h.segment] at hseg
    cases hseg⟩

/-- The reader is in step, and what it has returned are the messages of records before its
    position, none of which has a byte of another one. -/
structure Reader.Passed (r : Reader) (log : Log) (es : List Entry) : Prop where
  inStep : r.InStep log
  framed : ∀ e ∈ es, log.Frames r.maxRecordSize e ∧ Precedes e.stop r.position
  apart : es.Pairwise fun e e' => Precedes e.stop e'.place

/-- As long as the bytes at its position are a record, the reader passes it. -/
theorem Reader.Passed.read {es : List Entry} {x : Except LogError (Option Input)}
    (h : r.Passed log es) (hread : log.read r = (x, r')) (hx : ¬Misframed x) :
    ∃ es', r'.Passed log (es ++ es') ∧ es'.map Entry.message = returned [x] := by
  obtain ⟨_, i', o', _, hframed, hread', hstep⟩ := h.inStep.reads
  cases hread.symm.trans hread'
  obtain ⟨-, hat⟩ | ⟨hmisframed, -⟩ := hstep
  case inr => exact absurd hmisframed hx
  have hplace : r'.position = (i', o') := Prod.ext hat.index hat.offset
  have hforward : Precedes r.position r'.position := by
    have := log.precedes_framedFrom r.maxRecordSize r.index r.offset
    rwa [hframed, ← hplace] at this
  have hbefore : ∀ e ∈ es, log.Frames r'.maxRecordSize e ∧ Precedes e.stop r'.position := by
    intro e he
    obtain ⟨hframes, hstop⟩ := h.framed e he
    exact ⟨hat.max ▸ hframes, hstop.trans hforward⟩
  cases x with
  | error e => exact ⟨[], ⟨hat.inStep, by simpa using hbefore, by simpa using h.apart⟩, rfl⟩
  | ok found =>
    cases found with
    | none => exact ⟨[], ⟨hat.inStep, by simpa using hbefore, by simpa using h.apart⟩, rfl⟩
    | some m =>
      obtain ⟨e, hframes, rfl, hleads, hstop⟩ := Log.framedFrom_message hframed
      refine ⟨[e], ⟨hat.inStep, fun e' he' => ?_, ?_⟩, rfl⟩
      · rcases List.mem_append.1 he' with he' | he'
        · exact hbefore e' he'
        · obtain rfl := List.mem_singleton.1 he'
          exact ⟨hat.max ▸ hframes, .inr (by rw [hstop, hplace]; exact ⟨rfl, Nat.le_refl _⟩)⟩
      · -- the record starts where the reader was, or after that
        refine List.pairwise_append.2
          ⟨h.apart, List.pairwise_singleton _ _, fun e₁ he₁ e₂ he₂ => ?_⟩
        obtain rfl := List.mem_singleton.1 he₂
        exact (h.framed e₁ he₁).2.trans hleads.precedes

theorem Log.Reads.passed {xs : List (Except LogError (Option Input))} (hstart : log.Starts r)
    (hreads : log.Reads r xs r') (hframed : ∀ x ∈ xs, ¬Misframed x) :
    ∃ es, r'.Passed log es ∧ es.map Entry.message = returned xs := by
  induction hreads with
  | start => exact ⟨[], ⟨hstart.inStep, by simp, .nil⟩, rfl⟩
  | @read xs x r' r'' _ hread ih =>
    obtain ⟨es, hpassed, hes⟩ := ih fun x' hx' => hframed x' (List.mem_append_left _ hx')
    obtain ⟨es', hpassed', hes'⟩ :=
      hpassed.read hread (hframed x (List.mem_append_right _ List.mem_cons_self))
    refine ⟨es ++ es', hpassed', ?_⟩
    rw [List.map_append, hes, hes']
    exact List.filterMap_append.symm

/-- A reader of any log is asked for the next message any number of times, and goes on after
    errors. Until one of the reads fails at bytes that are no record, the reader is in step:
    what it has returned are the messages of records that have no byte in common, and its next
    read is framed from its position, be it an error or the message of the next record. It
    gets out of step with the first read that fails so, and with no other. -/
theorem Log.reads_in_step {xs : List (Except LogError (Option Input))} (hstart : log.Starts r)
    (hreads : log.Reads r xs r') (hframed : ∀ x ∈ xs, ¬Misframed x) :
    (∃ es : List Entry, es.map Entry.message = returned xs ∧
        (∀ e ∈ es, log.Frames r'.maxRecordSize e ∧ Precedes e.stop r'.position) ∧
        es.Pairwise fun e e' => Precedes e.stop e'.place) ∧
      r'.InStep log ∧
      ((log.read r').1, (log.read r').2.position) =
        log.framedFrom r'.maxRecordSize r'.index r'.offset ∧
      (∀ m, (log.read r').1 = .ok (some m) → ∃ e : Entry, log.Frames r'.maxRecordSize e ∧
        e.message = m ∧ log.Leads r'.position e.place ∧ e.stop = (log.read r').2.position) ∧
      ((log.read r').2.InStep log ↔ ¬Misframed (log.read r').1) := by
  obtain ⟨es, hpassed, hes⟩ := hreads.passed hstart hframed
  obtain ⟨x, i', o', r'', hnext, hread, hstep⟩ := hpassed.inStep.reads
  have hplace : r''.position = (i', o') := by
    obtain ⟨-, hat⟩ | ⟨-, hpast⟩ := hstep
    · exact Prod.ext hat.index hat.offset
    · exact Prod.ext hpast.index hpast.offset
  refine ⟨⟨es, hes, hpassed.framed, hpassed.apart⟩, hpassed.inStep, ?_, fun m hm => ?_, ?_⟩
  · rw [hread, hnext, hplace]
  · rw [hread] at hm ⊢
    subst hm
    rw [hplace]
    exact framedFrom_message hnext
  · rw [hread]
    obtain ⟨hframed', hat⟩ | ⟨hmisframed, hpast⟩ := hstep
    · exact iff_of_true hat.inStep hframed'
    · exact iff_of_false hpast.not_inStep (not_not_intro hmisframed)

theorem reads_in_step_twoHeights : ∃ (log : Log) (r : Reader) (es : List Entry),
    ((Workbench.empty "root").after "root" (twoHeights.map .act)).log? = some log ∧
      r.InStep log ∧ es.map Entry.message = [.endHeight ⟨5⟩, .endHeight ⟨6⟩] ∧
      es.Pairwise fun e e' => Precedes e.stop e'.place := by
  obtain ⟨log, hlog, hopen⟩ := log_twoHeights
  obtain ⟨r, hr, -, hyields⟩ := Workbench.replays list_root rfl operates_twoHeights
    rotations_twoHeights hlog hopen
  rw [written_twoHeights] at hyields
  obtain - | ⟨hfirst, - | ⟨hsecond, -⟩⟩ := hyields
  obtain ⟨⟨es, hes, -, hapart⟩, hin, -⟩ :=
    Log.reads_in_step (.newReader hr) ((Log.Reads.start.read hfirst).read hsecond) (by
      simp only [List.nil_append, List.cons_append, List.mem_cons, List.not_mem_nil, or_false]
      rintro x (rfl | rfl) ⟨⟩)
  exact ⟨log, _, es, hlog, hin, hes, hapart⟩

/-- A log with two markers, the first of which has got a wrong checksum. -/
def flippedLog : Log where
  disk := ⟨[(["root"], .directory), (["root", "WAL"], .file 0)],
    [(Record.encode (Input.endHeight ⟨5⟩).envelope).modify 0 (· ^^^ 1) ++
      Record.encode (Input.endHeight ⟨6⟩).envelope]⟩
  group := ⟨.dev "root", some 0, 50, 0, 0⟩
  registry := Workbench.registry

/-- A reader of that log after so many reads. -/
def flippedReader : Nat → Reader
  | 0 => .atPosition flippedLog.group 0 0
  | n + 1 => (flippedLog.read (flippedReader n)).2

theorem flippedReader_fails : flippedLog.read (flippedReader 0) =
    (.error (.corrupt "root/WAL" 0 (.record (.checksum 0x2620f050 0x2620f051))),
      flippedReader 1) :=
  Prod.ext (by decide +kernel) rfl

theorem flippedReader_goes_on :
    flippedLog.read (flippedReader 1) = (.ok (some (.endHeight ⟨6⟩)), flippedReader 2) :=
  Prod.ext (by decide +kernel) rfl

theorem flippedReader_waits : flippedLog.read (flippedReader 2) = (.ok none, flippedReader 3) :=
  Prod.ext (by decide +kernel) rfl

theorem flippedReader_repeats :
    flippedLog.read (flippedReader 3) = (.ok (some (.endHeight ⟨6⟩)), flippedReader 4) :=
  Prod.ext (by decide +kernel) rfl

theorem position_flippedReader : (flippedReader 1).position = (0, 0) := by decide +kernel

/-- After an error, the position is that of the first record still, which is no record if it is
    read from there, but the second one is read. At the end, the reader goes back to its
    position, and the second record is read once more. -/
theorem reads_flippedLog : ∃ x, flippedLog.newReader = .ok (flippedReader 0) ∧
    flippedLog.Reads (flippedReader 0) [x] (flippedReader 1) ∧
      (flippedReader 1).position = (0, 0) ∧
      Misframed (flippedLog.framedFrom flippedLog.group.config.maxRecordSize 0 0).1 ∧
      flippedLog.Reads (flippedReader 1) [.ok (some (.endHeight ⟨6⟩)), .ok none,
        .ok (some (.endHeight ⟨6⟩))] (flippedReader 4) := by
  refine ⟨_, rfl, Log.Reads.start.read flippedReader_fails, position_flippedReader, ?_,
    ((Log.Reads.start.read flippedReader_goes_on).read flippedReader_waits).read
      flippedReader_repeats⟩
  obtain ⟨x, i', o', r', hframed, hread, -⟩ := (Reader.at_atPosition flippedLog 0 0).reads
  have hread' := hread.symm.trans flippedReader_fails
  cases hread'
  rw [hframed]
  exact .record

end ConsensusCore
