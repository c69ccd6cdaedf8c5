import ConsensusCore.Proofs.Log.Following

/-!
# Readers and the records in a log

A log that holds chapters has the entries of the chapters, whether there is the beginning
of another record behind them or not (`Log.Holds.entries`). A reader *tracks* them
(`Reading.Tracks`): what it has returned are those from its start up to its position, and
it goes on with the first one from its position on (`Tracks.read_next`), or waits if there
is none (`Tracks.read_wait`).

Readers are started at such places only, at the oldest segment or behind a marker, and
track the entries on while bytes arrive in the head (`Tracks.arrive`), records become
complete (`Tracks.write`) and the head is sealed (`Tracks.sealing`).
-/

namespace ConsensusCore

variable {log log' : Log} {s s' : Shelf} {id : FileId} {c c' : Chapters} {rest : Bytes}
  {k : Nat} {before after ms : List Input} {m : Input} {r : Reader} {p : Nat × Nat}

/-! ## The records in a log -/

theorem flatMap_range'_eq_entriesOf {f : Nat → List Entry} {segments : List (List Input)}
    {first : Nat} (h : ∀ k ms, segments[k]? = some ms → f (first + k) = placed (first + k) 0 ms) :
    (List.range' first segments.length).flatMap f = entriesOf first segments := by
  induction segments generalizing first with
  | nil => rfl
  | cons ms segments ih =>
    rw [List.length_cons, List.range'_succ, List.flatMap_cons, entriesOf]
    congr 1
    · exact h 0 ms rfl
    · refine ih fun k ms' hms' => ?_
      have := h (k + 1) ms' hms'
      rwa [Nat.add_comm k 1, ← Nat.add_assoc] at this

/-- All envelopes in the log have a length that its readers accept, and what is in the head
    after them could become another one. -/
structure Log.Accepts (log : Log) (c : Chapters) (rest : Bytes) : Prop where
  fits : ∀ m ∈ c.all, m.envelope.length ≤ log.group.config.maxRecordSize
  torn : Record.Torn log.group.config.maxRecordSize rest

namespace Log.Holds

variable (h : log.Holds s id c rest) (ha : log.Accepts c rest)
include h ha

theorem envelopesIn (hms : c.segments[k]? = some ms) :
    log.envelopesIn (s.first + k) = ms.map Input.envelope := by
  obtain ⟨f, hf, hcontent⟩ := h.file_of_segment hms
  obtain ⟨p, hp⟩ := h.opened.resolve_segment hf
  have htorn : Record.Torn log.group.config.maxRecordSize (s.restAt rest k) := by
    rw [Shelf.restAt]
    split
    · exact Record.torn_nil _
    · exact ha.torn
  have hscan := Record.scan_encodeAll_torn (List.forall_mem_map.2 fun m hm =>
    have hall := Chapters.mem_all hms hm
    ⟨ha.fits m hall, h.short m hall⟩) htorn
  simp only [Log.envelopesIn, Disk.fileAt_of_file hp, hcontent]
  exact congrArg Prod.fst hscan

/-- The complete records of a segment end where those of its chapter do. -/
theorem endOf (hms : c.segments[k]? = some ms) :
    log.endOf (s.first + k) = (s.first + k, (frames ms).length) := by
  rw [Log.endOf, h.envelopesIn ha hms, ← Record.length_encodeAll]
  rfl

/-- The complete records in the log are those of its chapters. -/
theorem entries : log.entries = c.entries s.first := by
  have hlength : log.group.maxIndex + 1 - log.group.minIndex = c.segments.length := by
    rw [h.length_segments, h.opened.max, h.opened.min, Shelf.last]
    omega
  rw [Log.entries, hlength, h.opened.min, h.registry]
  exact flatMap_range'_eq_entriesOf fun k ms hms => by rw [h.envelopesIn ha hms, placed]

theorem entriesFrom (hp : c.At s.first p k before after) :
    log.entriesFrom p = c.ahead s.first k before after := by
  rw [Log.entriesFrom, h.entries ha, hp.filter_entries]

end Log.Holds

/-! ## Logs without a record that is too long -/

/-- No record in the log is one that its readers do not accept. -/
def Log.Legible (log : Log) : Prop :=
  ∀ index id, log.group.minIndex ≤ index → index ≤ log.group.maxIndex →
    log.disk.fileAt (log.group.segmentRoute index) = .ok id →
    ∀ fault, (Record.scan log.group.config.maxRecordSize (log.disk.content id)).2 ≠ .corrupt fault

namespace Log.Holds

theorem fits_of_legible (h : log.Shows s id c) (hlegible : log.Legible) :
    ∀ m ∈ c.all, m.envelope.length ≤ log.group.config.maxRecordSize := by
  intro m hm
  rw [← c.flatten_segments, List.mem_flatten] at hm
  obtain ⟨ms, hms, hm⟩ := hm
  obtain ⟨k, hk⟩ := List.mem_iff_getElem?.1 hms
  obtain ⟨f, hf, hcontent⟩ := h.file_of_segment hk
  obtain ⟨p, hp⟩ := h.opened.resolve_segment hf
  have hlt := (List.getElem?_eq_some_iff.1 hk).1
  rw [h.length_segments] at hlt
  have hscan := hlegible (s.first + k) f (by rw [h.opened.min]; omega)
    (by rw [h.opened.max, Shelf.last]; omega) (Disk.fileAt_of_file hp)
  rw [hcontent, Shelf.restAt_nil, List.append_nil, frames] at hscan
  exact Record.length_le_of_scan
    (List.forall_mem_map.2 fun m' hm' => h.short m' (Chapters.mem_all hk hm')) hscan _
    (List.mem_map_of_mem hm)

theorem legible (h : log.Shows s id c)
    (hfits : ∀ m ∈ c.all, m.envelope.length ≤ log.group.config.maxRecordSize) : log.Legible := by
  intro index f hmin hmax hf fault
  obtain ⟨k, rfl⟩ := Nat.exists_eq_add_of_le hmin
  rw [h.opened.min, h.opened.max, Shelf.last] at hmax
  have hlt : k < c.segments.length := by
    rw [h.length_segments]
    omega
  have hk := List.getElem?_eq_getElem hlt
  obtain ⟨f', hf', hcontent⟩ := h.file_of_segment hk
  obtain ⟨p, hp⟩ := h.opened.resolve_segment hf'
  rw [h.opened.min, Disk.fileAt_of_file hp] at hf
  cases hf
  have hscan := Record.scan_encodeAll_torn (List.forall_mem_map.2 fun m hm =>
    have hall := Chapters.mem_all hk hm
    ⟨hfits m hall, h.short m hall⟩) (Record.torn_nil log.group.config.maxRecordSize)
  rw [hcontent, Shelf.restAt_nil, frames, hscan]
  simp

end Log.Holds

/-! ## Readings -/

/-- The place that a reader was started at, and what it has returned since. -/
structure Reading where
  start : Nat × Nat
  returned : List Input

/-- The reader has returned the messages from its start up to its position, both of which
    are between messages in the log. -/
structure Reading.Tracks (ρ : Reading) (log : Log) (s : Shelf) (c : Chapters) (r : Reader) :
    Prop where
  max : r.maxRecordSize = log.group.config.maxRecordSize
  started : ∃ k before after, c.At s.first ρ.start k before after
  stands : ∃ k before after, r.Stands log s c k before after
  returned : ∃ past, (c.entries s.first).filter (Entry.isFrom ρ.start) =
      past ++ (c.entries s.first).filter (Entry.isFrom r.position) ∧
    past.map Entry.message = ρ.returned

namespace Reading.Tracks

variable {ρ : Reading} (h : ρ.Tracks log s c r)
include h

/-! ### While the log grows -/

/-- Bytes that do not complete a record change nothing. -/
theorem arrive (hconfig : log'.group.config = log.group.config)
    (hcontent : ∀ f, ∃ bs, log'.disk.content f = log.disk.content f ++ bs) :
    ρ.Tracks log' s c r := by
  obtain ⟨k, before, after, hstands⟩ := h.stands
  exact ⟨h.max.trans (hconfig ▸ rfl), h.started,
    ⟨k, before, after, hstands.grow rfl hstands.messages (fun f hf => hf) hcontent⟩, h.returned⟩

/-- A record that is complete comes after all that was to be returned. -/
theorem write (hconfig : log'.group.config = log.group.config)
    (hcontent : ∀ f, ∃ bs, log'.disk.content f = log.disk.content f ++ bs) (m : Input) :
    ρ.Tracks log' s (c.write m) r := by
  obtain ⟨k₀, before₀, after₀, hstarted⟩ := h.started
  obtain ⟨after₀', hstarted'⟩ := hstarted.write m
  obtain ⟨k, before, after, hstands⟩ := h.stands
  obtain ⟨after', hat⟩ := hstands.at_position.write m
  obtain ⟨past, hpast, hreturned⟩ := h.returned
  refine ⟨h.max.trans (hconfig ▸ rfl), ⟨k₀, before₀, after₀', hstarted'⟩,
    ⟨k, before, after', hstands.grow rfl hat.messages (fun f hf => hf) hcontent⟩,
    past, ?_, hreturned⟩
  rw [Chapters.entries_write, List.filter_append, List.filter_append, hpast,
    List.filter_cons_of_pos (hstarted.isFrom_next m),
    List.filter_cons_of_pos (hstands.at_position.isFrom_next m), List.filter_nil,
    List.filter_nil, List.append_assoc]

/-- Sealing the head leaves all records in their places. -/
theorem sealing (hhead : log.group.head = s.head) (hsealing : log.Sealing s c log' s' c') :
    ρ.Tracks log' s' c' r := by
  obtain ⟨k₀, before₀, after₀, hstarted⟩ := h.started
  obtain ⟨k, before, after, hstands⟩ := h.stands
  have hstands' := hstands.sealing hhead hsealing
  refine ⟨h.max.trans (hsealing.config ▸ rfl), ?_, ⟨k, before, after, hstands'⟩, ?_⟩
  · obtain ⟨rfl, rfl⟩ | ⟨_, _, -, rfl, rfl⟩ := hsealing.shelf
    · exact h.started
    · exact ⟨k₀, before₀, after₀, hstarted.sealHead⟩
  · obtain ⟨rfl, rfl⟩ | ⟨_, _, -, rfl, rfl⟩ := hsealing.shelf
    · exact h.returned
    · rw [Chapters.entries_sealHead]
      exact h.returned

/-! ### Reading on -/

variable (hlog : log.Holds s id c rest) (ha : log.Accepts c rest)
include hlog ha

/-- Without a further record, the reader comes to the end of the head, and waits. -/
theorem read_wait (hnone : log.entriesFrom r.position = []) :
    ∃ r', log.read r = (.ok none, r') ∧ r'.position = log.endOf log.group.maxIndex ∧
      ρ.Tracks log s c r' := by
  obtain ⟨k, before, after, hstands⟩ := h.stands
  obtain ⟨past, hpast, hreturned⟩ := h.returned
  obtain ⟨r₁, k₁, before₁, after₁, hread, hmax, hstands₁, hopens₁, hahead, hend⟩ :=
    hstands.skip hlog.backs (hstands.served hlog)
  rw [hlog.entriesFrom ha hstands.at_position, ← hahead, Chapters.ahead,
    List.append_eq_nil_iff] at hnone
  have hnil : after₁ = [] := by rw [← map_message_placed _ _ after₁, hnone.1]; rfl
  subst hnil
  have htorn : Record.Torn r₁.maxRecordSize rest := by rw [hmax, h.max]; exact ha.torn
  obtain ⟨r', hread', hstands', hmax', hposition⟩ :=
    hstands₁.read_head hlog.backs hopens₁ htorn (hend rfl)
  have hlast : log.group.maxIndex = s.first + k₁ := by rw [hlog.opened.max, Shelf.last, hend rfl]
  refine ⟨r', hread.trans hread', ?_, hmax'.trans (hmax.trans h.max), h.started,
    ⟨_, _, _, hstands'⟩, past, ?_, hreturned⟩
  · have hmessages := hstands₁.messages
    rw [List.append_nil] at hmessages
    rw [hposition, hlast, hlog.endOf ha hmessages]
    exact Prod.ext hstands₁.index hstands₁.offset
  · rw [hpast, hstands.at_position.filter_entries, ← hahead, hposition,
      hstands₁.at_position.filter_entries]

/-- The first record from the position on is read, wherever it is. -/
theorem read_next {e : Entry} {es : List Entry} (hnext : log.entriesFrom r.position = e :: es) :
    ∃ r', log.read r = (.ok (some e.message), r') ∧ r'.position = e.stop ∧
      Reading.Tracks ⟨ρ.start, ρ.returned ++ [e.message]⟩ log s c r' := by
  obtain ⟨k, before, after, hstands⟩ := h.stands
  obtain ⟨past, hpast, hreturned⟩ := h.returned
  obtain ⟨r₁, k₁, before₁, after₁, hread, hmax, hstands₁, hopens₁, hahead, hend⟩ :=
    hstands.skip hlog.backs (hstands.served hlog)
  rw [hlog.entriesFrom ha hstands.at_position] at hnext
  cases after₁ with
  | nil =>
    -- behind the head there is no segment that the record could be in
    rw [← hahead, Chapters.ahead, hend rfl,
      List.drop_eq_nil_of_le (Nat.le_of_eq hlog.length_segments)] at hnext
    cases hnext
  | cons m after₁ =>
    have hm : m.envelope.length ≤ r₁.maxRecordSize := by
      rw [hmax, h.max]
      exact ha.fits m
        (Chapters.mem_all hstands₁.messages (List.mem_append_right _ List.mem_cons_self))
    obtain ⟨r', hread', hstands', hmax'⟩ := hstands₁.read_message hlog.backs hopens₁ hm
    -- what comes after it is ahead of the reader then
    rw [← hahead, Chapters.ahead, placed_cons, List.cons_append, List.cons.injEq] at hnext
    obtain ⟨rfl, rfl⟩ := hnext
    refine ⟨r', hread.trans hread', Prod.ext hstands'.index ?_, hmax'.trans (hmax.trans h.max),
      h.started, ⟨_, _, _, hstands'⟩,
      past ++ [.ofMessage (s.first + k₁) (frames before₁).length m], ?_, ?_⟩
    · exact hstands'.offset.trans (by
        rw [frames_append, List.length_append, frames_singleton]; rfl)
    · rw [hpast, hstands.at_position.filter_entries, ← hahead,
        hstands'.at_position.filter_entries, Chapters.ahead, Chapters.ahead, placed_cons,
        frames_append, List.length_append, List.append_assoc, List.cons_append,
        List.singleton_append]
    · rw [List.map_append, hreturned]
      rfl

/-- The reader is at the next record, or still at the end of a segment that is sealed. -/
theorem position : r.position = log.nextPlace r.position ∨
    r.index < log.group.maxIndex ∧ r.position = log.endOf r.index := by
  obtain ⟨k, before, after, hstands⟩ := h.stands
  have hplace : r.position = (s.first + k, (frames before).length) :=
    Prod.ext hstands.index hstands.offset
  have hfrom := hlog.entriesFrom ha hstands.at_position
  cases after with
  | cons m after =>
    refine .inl ?_
    rw [Log.nextPlace, hfrom, Chapters.ahead, placed_cons]
    exact hplace
  | nil =>
    have hend : log.endOf (s.first + k) = (s.first + k, (frames before).length) := by
      refine hlog.endOf ha ?_
      rw [hstands.messages, List.append_nil]
    rcases Nat.eq_or_lt_of_le (hstands.le_tails hlog.backs) with rfl | hlt
    · refine .inl ?_
      rw [Log.nextPlace, hfrom, Chapters.ahead,
        List.drop_eq_nil_of_le (Nat.le_of_eq hlog.length_segments), hlog.opened.max]
      exact hplace.trans hend.symm
    · refine .inr ⟨(hstands.lt_maxIndex hlog.backs).2 hlt, ?_⟩
      rw [hstands.index, hend, hplace]

end Reading.Tracks

/-! ## Starting -/

/-- What is found in a segment ends between two of its records. -/
theorem Log.lastMarker_ends {registry : Registry Input} {accept : UInt64 → Bool} {path : String}
    {offset o : Nat} {h : UInt64} {found : Option (UInt64 × Nat)} {es : List Bytes}
    (hmarker : lastMarker registry accept path offset found es = .ok (some (h, o))) :
    found = some (h, o) ∨ ∃ es₁ es₂, es = es₁ ++ es₂ ∧ o = offset + Record.totalLength es₁ := by
  induction es generalizing offset found with
  | nil => exact .inl (Except.ok.inj hmarker)
  | cons bs es ih =>
    rw [lastMarker] at hmarker
    cases hdecode : registry.decode bs with
    | error e => rw [hdecode] at hmarker; cases hmarker
    | ok m =>
      rw [hdecode] at hmarker
      rcases ih hmarker with hfound | ⟨es₁, es₂, rfl, rfl⟩
      · -- it is this record, or has been found before
        have hthis : found = some (h, o) ∨ o = offset + (Record.headerLength + bs.length) := by
          split at hfound
          · split at hfound
            · cases hfound
              exact .inr rfl
            · exact .inl hfound
          · exact .inl hfound
        exact hthis.imp_right fun ho => ⟨[bs], es, rfl, ho⟩
      · exact .inr ⟨bs :: es₁, es₂, rfl, Nat.add_assoc _ _ _⟩

theorem Log.markerIn_ends {accept : UInt64 → Bool} {index i o : Nat} {h : UInt64}
    (hmarker : log.markerIn accept index = .ok (some (h, i, o))) :
    i = index ∧ ∃ es₁ es₂, log.envelopesIn index = es₁ ++ es₂ ∧ o = Record.totalLength es₁ := by
  simp only [markerIn] at hmarker
  cases hfile : log.disk.fileAt (log.group.segmentRoute index) with
  | error e => rw [hfile] at hmarker; cases hmarker
  | ok id =>
    simp only [hfile] at hmarker
    split at hmarker
    · cases hmarker
    · next found hfound =>
      split at hmarker
      · cases hmarker
      · obtain ⟨⟨h', o'⟩, rfl, hsome⟩ :=
          Option.map_eq_some_iff.1 (Except.ok.inj hmarker)
        cases hsome
        refine ⟨rfl, ?_⟩
        rw [envelopesIn, hfile]
        rcases lastMarker_ends hfound with hnone | ⟨es₁, es₂, hes, ho⟩
        · cases hnone
        · exact ⟨es₁, es₂, hes, ho.trans (Nat.zero_add _)⟩

theorem Log.searchFrom_ends {accept : UInt64 → Bool} {count i o : Nat} {h : UInt64}
    (hsearch : log.searchFrom accept count = .ok (some (h, i, o))) :
    ∃ k ≤ count, log.markerIn accept (log.group.minIndex + k) = .ok (some (h, i, o)) := by
  induction count with
  | zero => exact ⟨0, Nat.le_refl 0, hsearch⟩
  | succ count ih =>
    rw [searchFrom] at hsearch
    split at hsearch
    · obtain ⟨k, hk, hmarker⟩ := ih hsearch
      exact ⟨k, Nat.le_succ_of_le hk, hmarker⟩
    · exact ⟨count + 1, Nat.le_refl _, hsearch⟩

/-- The reader is one that the log has started. -/
inductive Log.Starts (log : Log) (r : Reader) : Prop
  | newReader : log.newReader = .ok r → Starts log r
  | search {accept : UInt64 → Bool} {h : UInt64} :
    log.search accept = .ok (some (h, r)) → Starts log r

/-- Readers are started between records, and have returned nothing yet. -/
theorem Log.Starts.tracks (hlog : log.Holds s id c rest) (ha : log.Accepts c rest)
    (h : log.Starts r) : Reading.Tracks ⟨r.position, []⟩ log s c r := by
  obtain ⟨i, o, rfl, k, before, after, hindex, hmessages, hoffset⟩ : ∃ i o,
      r = .atPosition log.group i o ∧ ∃ k before after,
        i = log.group.minIndex + k ∧ c.segments[k]? = some (before ++ after) ∧
          o = (frames before).length := by
    cases h with
    | newReader hnew =>
      rw [Log.newReader, hlog.opened.isClosed] at hnew
      cases hnew
      have hpos : 0 < c.segments.length := by
        rw [hlog.length_segments]
        omega
      exact ⟨_, _, rfl, 0, [], _, rfl, List.getElem?_eq_getElem hpos, rfl⟩
    | @search accept h hsearch =>
      rw [Log.search, hlog.opened.isClosed] at hsearch
      cases hfrom : log.searchFrom accept (log.group.maxIndex - log.group.minIndex) with
      | error e => rw [hfrom] at hsearch; cases hsearch
      | ok found =>
        rw [hfrom] at hsearch
        obtain ⟨⟨h', i, o⟩, rfl, hsome⟩ := Option.map_eq_some_iff.1 (Except.ok.inj hsearch)
        cases hsome
        obtain ⟨k, hk, hmarker⟩ := searchFrom_ends hfrom
        obtain ⟨rfl, es₁, es₂, hes, rfl⟩ := markerIn_ends hmarker
        have hlt : k < c.segments.length := by
          rw [hlog.opened.length_tails] at hk
          rw [hlog.length_segments]
          omega
        -- the envelopes before the marker's end are those of messages
        have hget := List.getElem?_eq_getElem hlt
        rw [hlog.opened.min, hlog.envelopesIn ha hget] at hes
        obtain ⟨before, after, hms, rfl, rfl⟩ := List.map_eq_append_iff.1 hes
        exact ⟨_, _, rfl, k, before, after, rfl, hms ▸ hget,
          (Record.length_encodeAll _).symm⟩
  subst hindex hoffset
  have hstands := Reader.stands_atPosition hlog hmessages
  exact ⟨rfl, ⟨_, _, _, hstands.at_position⟩, ⟨_, _, _, hstands⟩, [], rfl, rfl⟩

end ConsensusCore
