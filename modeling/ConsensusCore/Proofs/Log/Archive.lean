import ConsensusCore.Proofs.Log.Reading

/-!
# What has been in a log

All that has been in a log since some time is its *archive* (`Log.Archives`): a shelf and its
chapters, of which the oldest segments may have been deleted. Writing, sealing and trimming keep
the archive, and add to it at its end. None of them changes what is in the files of the archive,
but for what is written to the head; so those who have a deleted file open still read it.

A log that shows its chapters is its own archive, of which nothing has been deleted.
-/

namespace ConsensusCore

variable {log log' : Log} {s s' : Shelf} {id : FileId} {c c' : Chapters} {k : Nat} {m : Input}

namespace Log

/-! ## Operations of a log -/

/-- The bytes of a record go to the head. -/
theorem write_ok (hregistry : log.registry = Workbench.registry) (h : log.write m = .ok log') :
    m.envelope.length ≤ log.group.config.maxRecordSize ∧
      ∃ g d, log.group.write log.disk (Record.encode m.envelope) = .ok (g, d) ∧
        log' = { log with disk := d, group := g } := by
  have hencode : log.registry.encode m = .ok m.envelope := hregistry ▸ Registry.encode_inputs m
  simp only [Log.write, Log.envelope, hencode] at h
  by_cases hm : log.group.config.maxRecordSize < m.envelope.length
  · simp [if_pos hm] at h
  · refine ⟨Nat.not_lt.1 hm, ?_⟩
    cases hwrite : log.group.write log.disk (Record.encode m.envelope) with
    | error e => simp [if_neg hm, hwrite] at h
    | ok written =>
      simp only [if_neg hm, hwrite, Except.ok.injEq] at h
      exact ⟨written.1, written.2, rfl, h.symm⟩

/-- The files have the same bytes, on the same shelf or on one where the head is sealed. -/
structure Sealing (log : Log) (s : Shelf) (c : Chapters) (log' : Log) (s' : Shelf)
    (c' : Chapters) : Prop where
  config : log'.group.config = log.group.config
  content : ∀ f, log'.disk.content f = log.disk.content f
  shelf : s' = s ∧ c' = c ∨
    ∃ id new, log.group.head = some id ∧ s' = s.rotated id new ∧ c' = c.sealHead

theorem Sealing.refl (log : Log) (s : Shelf) (c : Chapters) : log.Sealing s c log s c :=
  ⟨rfl, fun _ => rfl, .inl ⟨rfl, rfl⟩⟩

theorem Sealing.first (h : log.Sealing s c log' s' c') : s'.first = s.first := by
  obtain ⟨rfl, -⟩ | ⟨_, _, -, rfl, -⟩ := h.shelf <;> rfl

end Log

/-! ## Archives -/

/-- The log has had the chapters on the shelf, of which the `k` oldest segments have been
    deleted. A deleted file is still what it was for those who have it open. -/
structure Log.Archives (log : Log) (s : Shelf) (id : FileId) (c : Chapters) (k : Nat) : Prop where
  registry : log.registry = Workbench.registry
  opened : log.group.OpenOn (s.drop k) id log.disk
  le : k ≤ s.tails.length
  fill : c.Fill [] s log.disk
  short : ∀ m ∈ c.all, m.envelope.length < 2 ^ 32
  nodup : s.files.Nodup
  lt : ∀ f ∈ s.files, f < log.disk.contents.length
  admits : ∀ i f, s.tails[i]? = some f → s.dir.Admits (Segment.tailName (s.first + i))

/-- At first, nothing has been deleted. -/
theorem Log.Shows.archives (h : log.Shows s id c) : log.Archives s id c 0 where
  registry := h.registry
  opened := h.opened
  le := Nat.zero_le _
  fill := h.fill
  short := h.short
  nodup := h.opened.on.nodup
  lt := h.opened.on.lt
  admits _ _ hf := h.opened.on.admits _ _ (.tail hf)

theorem Log.Archives.shows (h : log.Archives s id c 0) : log.Shows s id c :=
  ⟨h.registry, h.opened, h.fill, h.short⟩

namespace Log.Archives

variable (h : log.Archives s id c k)
include h

theorem min : log.group.minIndex = s.first + k := h.opened.min

theorem max : log.group.maxIndex = s.last := h.opened.max.trans (Shelf.last_drop h.le)

theorem head : s.head = some id := h.opened.shelf

/-- The files of the archive are those of the log, and those that have been deleted. -/
theorem backs : log.Backs s c [] where
  registry := h.registry
  max := h.max
  short := h.short
  length_segments := by simp [Chapters.segments, h.fill.length_tails]
  file_of_segment _ _ hms := h.fill.file_of_segment h.head hms
  resolve_segment j f hmin hf := by
    rw [h.min] at hmin
    obtain ⟨i, rfl⟩ := Nat.exists_eq_add_of_le (Nat.le_of_add_le_add_left hmin)
    rw [← List.getElem?_drop, ← Shelf.files_drop h.le] at hf
    rw [← Nat.add_assoc]
    exact h.opened.resolve_segment hf

/-- A segment that has been deleted is not found. -/
theorem resolve_deleted {i : Nat} (hfirst : s.first ≤ i) (hmin : i < log.group.minIndex) :
    log.disk.resolve (log.group.segmentRoute i) = .error .notFound := by
  obtain ⟨j, rfl⟩ := Nat.exists_eq_add_of_le hfirst
  have hle := h.le
  have hmax := h.max
  rw [h.min] at hmin
  rw [Shelf.last] at hmax
  -- its number is none of those that are left, but the directory would admit its name
  have hnone := h.opened.on.find?_eq_none fun _ =>
    Shelf.not_names_drop (Nat.lt_of_add_lt_add_left hmin)
  have hlocate := (Disk.locate_entry h.opened.on.locate h.opened.on.isDir
    (Segment.isEntry_tailName _)).2 ⟨h.admits j _ (List.getElem?_eq_getElem (by omega)), rfl⟩
  rw [Group.segmentRoute, if_neg (by omega), h.opened.tailRoute, Disk.resolve, hlocate]
  simp only [bind, Except.bind, hnone]

/-! ### Steps -/

theorem write (hvalid : log.group.config.validate = .ok ()) (hwrite : log.write m = .ok log') :
    log'.Archives s id (c.write m) k ∧ log'.group.config = log.group.config ∧
      log'.group.minIndex = log.group.minIndex ∧
      (∀ f, ∃ bs, log'.disk.content f = log.disk.content f ++ bs) ∧
      ∀ f ∈ s.tails, log'.disk.content f = log.disk.content f := by
  obtain ⟨hm, g, d, hgroup, rfl⟩ := write_ok h.registry hwrite
  simp only [Group.write, h.opened.head, Except.ok.injEq, Prod.mk.injEq] at hgroup
  obtain ⟨rfl, rfl⟩ := hgroup
  refine ⟨⟨h.registry, h.opened.head ▸ h.opened.write _, h.le,
    h.fill.write h.nodup h.opened.lt h.head m, ?_, h.nodup, ?_, h.admits⟩, rfl, rfl,
    fun f => ⟨_, Disk.content_append h.opened.lt _⟩, fun f hf => ?_⟩
  · exact Chapters.forall_mem_all_write.2
      ⟨h.short, Nat.lt_of_le_of_lt hm (LogConfig.maxRecordSize_lt hvalid)⟩
  · rw [Disk.append, Disk.length_contents_setContent]
    exact h.lt
  · rw [Disk.content_append h.opened.lt, if_neg (Shelf.ne_of_mem_tails h.nodup h.head hf),
      List.append_nil]

/-- Sealing the head adds a segment to the archive. -/
theorem sealed {g' : Group} {d' : Disk} (hnumber : log.group.maxIndex < Saturating.ceiling)
    (hrotate : log.group.rotate log.disk = .ok (g', d')) :
    ∃ s' id' c', Log.Archives { log with disk := d', group := g' } s' id' c' k ∧
      log.Sealing s c { log with disk := d', group := g' } s' c' := by
  obtain ⟨hopen, hconfig, hcontent⟩ := h.opened.rotate_ok (h.opened.max ▸ hnumber) hrotate
  rw [Shelf.rotated_drop h.le] at hopen
  have hlt : log.disk.contents.length < d'.contents.length := hopen.lt
  refine ⟨s.rotated id log.disk.contents.length, _, c.sealHead,
    ⟨h.registry, hopen, ?_, h.fill.rotated h.head hcontent,
      fun m hm => h.short m (c.all_sealHead ▸ hm), ?_, ?_, ?_⟩,
    ⟨hconfig, hcontent, .inr ⟨id, _, h.opened.head, rfl, rfl⟩⟩⟩
  · exact Nat.le_trans h.le (by simp [Shelf.rotated, Shelf.sealHead, Shelf.withHead])
  · -- the new head is a file that nobody has had before
    rw [Shelf.files_rotated h.head, List.nodup_append]
    refine ⟨h.nodup, by simp, ?_⟩
    rintro f hf new hnew rfl
    exact Nat.lt_irrefl _ (List.mem_singleton.1 hnew ▸ h.lt f hf)
  · intro f hf
    rw [Shelf.files_rotated h.head, List.mem_append, List.mem_singleton] at hf
    rcases hf with hf | rfl
    · exact Nat.lt_trans (h.lt f hf) hlt
    · exact hlt
  · intro i f hf
    by_cases hi : i < k
    · exact h.admits i _ (List.getElem?_eq_getElem (Nat.lt_of_lt_of_le hi h.le))
    · -- the tails that are left have their names, the new one included
      refine hopen.on.admits _ f (Shelf.names_tail_iff.2 ⟨i - k, ?_, ?_⟩)
      · simp only [Shelf.drop, Shelf.rotated, Shelf.sealHead, Shelf.withHead]
        omega
      · rw [Shelf.drop, List.getElem?_drop, Nat.add_sub_cancel' (Nat.not_lt.1 hi)]
        exact hf

theorem sealIfDue {g' : Group} {d' : Disk}
    (hnumber : log.group.config.headSizeLimit ≤ log.group.headSize →
      log.group.maxIndex < Saturating.ceiling)
    (hseal : log.group.sealIfDue log.disk = .ok (g', d')) :
    ∃ s' id' c', Log.Archives { log with disk := d', group := g' } s' id' c' k ∧
      log.Sealing s c { log with disk := d', group := g' } s' c' ∧
      g'.minIndex = log.group.minIndex := by
  rw [Group.sealIfDue] at hseal
  split at hseal
  next hdue =>
    obtain ⟨s', id', c', h', hsealing⟩ := h.sealed (hnumber hdue) hseal
    exact ⟨s', id', c', h', hsealing, (Group.rotate_keeps hseal).2⟩
  next =>
    cases hseal
    exact ⟨s, id, c, h, .refl log s c, rfl⟩

/-- Looking at the limits seals the head, if that is due, and deletes the oldest segments. -/
theorem checkLimits {result : Except LogError Unit}
    (hnumber : log.group.maxIndex < Saturating.ceiling)
    (hcheck : log.checkLimits = (result, log')) :
    ∃ s' id' c' k', log'.Archives s' id' c' k' ∧ log.Sealing s c log' s' c' ∧
      log.group.minIndex ≤ log'.group.minIndex := by
  have hclosed := h.opened.isClosed
  rw [Log.checkLimits, Log.withGroup] at hcheck
  cases hseal : log.group.sealIfDue log.disk with
  | error e =>
    rw [Group.checkLimits_of_error hclosed hseal] at hcheck
    cases hcheck
    exact ⟨s, id, c, k, h, .refl log s c, Nat.le_refl _⟩
  | ok due =>
    obtain ⟨g₁, d₁⟩ := due
    obtain ⟨s₁, id₁, c₁, h₁, hsealing, hmin₁⟩ := h.sealIfDue (fun _ => hnumber) hseal
    obtain ⟨g', d', hcheck', hopen', hconfig, hcontents, -⟩ :=
      h₁.opened.checkLimits_of_sealed hclosed hseal
    rw [hcheck'] at hcheck
    cases hcheck
    -- deleting takes away names, and no bytes
    have hcontent : ∀ f, d'.content f = d₁.content f := fun f => by
      rw [Disk.content, hcontents, Disk.content]
    have hsurplus := g₁.surplus_le (s₁.drop k) d₁
    rw [Shelf.drop_drop] at hopen'
    refine ⟨s₁, id₁, c₁, _, ⟨h.registry, hopen', ?_, h₁.fill.congr hcontent, h₁.short, h₁.nodup,
      hcontents ▸ h₁.lt, h₁.admits⟩, ⟨hconfig.trans hsealing.config,
        fun f => (hcontent f).trans (hsealing.content f), hsealing.shelf⟩, ?_⟩
    · have hle := h₁.le
      have hlength : (s₁.drop k).tails.length = s₁.tails.length - k := List.length_drop
      change g₁.surplus (s₁.drop k) d₁ + k ≤ _
      omega
    · rw [← hmin₁, h₁.min, hopen'.min]
      simp only [Shelf.drop]
      omega

theorem rotate (hnumber : log.group.maxIndex < Saturating.ceiling)
    (hrotate : log.rotate = .ok log') :
    ∃ s' id' c', log'.Archives s' id' c' k ∧ log.Sealing s c log' s' c' ∧
      log'.group.minIndex = log.group.minIndex := by
  rw [Log.rotate] at hrotate
  cases hr : log.group.rotate log.disk with
  | error e => rw [hr] at hrotate; cases hrotate
  | ok result =>
    rw [hr] at hrotate
    cases hrotate
    obtain ⟨s', id', c', h', hsealing⟩ := h.sealed hnumber hr
    exact ⟨s', id', c', h', hsealing, (Group.rotate_keeps hr).2⟩

end Log.Archives

end ConsensusCore
