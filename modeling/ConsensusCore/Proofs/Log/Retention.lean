import ConsensusCore.Proofs.Log.Clearing
import ConsensusCore.Proofs.Log.Trimming
import Mathlib.Algebra.Ring.Nat

/-!
# What a log retains

A log of which the total size is limited does not keep all of its tails. When the limits are
checked, the head is sealed if that is due (`Log.sealIfDue`), and then the oldest tails are
deleted, no more than it takes for the rest to be within the limit
(`Log.checkLimits_of_sealed`).

* `Group.excess_fits`, `Group.excess_least`: how many tails go, in terms of their sizes;
* `Group.OpenOn.deleted`: those are gone, and nothing else is;
* `Log.retains_newest`: what is left is read as before, without the messages that were in them.
-/

namespace ConsensusCore

open Segment Reader

variable {log log' : Log} {s : Shelf} {id : FileId} {c : Chapters} {k : Nat}

/-! ## Sizes -/

/-- The sizes of the segments, from the oldest one to the head. -/
def Log.sizes (log : Log) : List Nat :=
  (List.range' log.group.minIndex (log.group.maxIndex + 1 - log.group.minIndex)).map
    fun index => log.disk.sizeAt (log.group.segmentRoute index)

namespace Group

/-- Once the excess has gone, the rest is within the limit, or nothing is left that could go. -/
theorem excess_fits (limit rest : Nat) (sizes : List Nat) :
    (sizes.drop (excess limit (sizes.sum + rest) sizes)).sum + rest ≤ limit ∨
      excess limit (sizes.sum + rest) sizes = sizes.length := by
  induction sizes with
  | nil => exact .inr rfl
  | cons n sizes ih =>
    rw [excess]
    split
    next hfits => exact .inl hfits
    next =>
      have htotal : (n :: sizes).sum + rest - n = sizes.sum + rest := by
        rw [List.sum_cons]
        omega
      rw [htotal, List.drop_succ_cons, List.length_cons, Nat.succ_inj]
      exact ih

/-- Had fewer gone, the rest would be above the limit. -/
theorem excess_least {limit rest j : Nat} {sizes : List Nat}
    (hj : j < excess limit (sizes.sum + rest) sizes) : limit < (sizes.drop j).sum + rest := by
  induction sizes generalizing j with
  | nil => exact absurd hj (Nat.not_lt_zero j)
  | cons n sizes ih =>
    rw [excess] at hj
    split at hj
    next => exact absurd hj (Nat.not_lt_zero j)
    next habove =>
      have htotal : (n :: sizes).sum + rest - n = sizes.sum + rest := by
        rw [List.sum_cons]
        omega
      rw [htotal] at hj
      rcases j with _ | j
      · exact Nat.not_le.1 habove
      · exact ih (Nat.lt_of_succ_lt_succ hj)

namespace OpenOn

/-- The sizes are those of the files on the shelf. -/
theorem sizes (h : log.group.OpenOn s id log.disk) :
    log.sizes = s.files.map fun f => (log.disk.content f).length := by
  have hlength : log.group.maxIndex + 1 - log.group.minIndex = s.files.length := by
    rw [h.max, h.min, Shelf.last, h.files, List.length_append, List.length_singleton]
    omega
  rw [Log.sizes, hlength, h.min]
  refine List.ext_getElem (by simp) fun j hj hj' => ?_
  rw [List.length_map] at hj'
  obtain ⟨p, hp⟩ := h.resolve_segment (List.getElem?_eq_getElem hj')
  simp only [List.getElem_map, List.getElem_range', Nat.one_mul, Disk.sizeAt, hp]

/-- The total size is what all segments take. -/
theorem totalSize (h : log.group.OpenOn s id log.disk) :
    log.group.totalSize log.disk =
      (s.tails.map fun f => (log.disk.content f).length).sum + (log.disk.content id).length := by
  have htails : (List.range' s.first s.tails.length).map (log.group.tailSize log.disk) =
      s.tails.map fun f => (log.disk.content f).length := by
    refine List.ext_getElem (by simp) fun j hj hj' => ?_
    rw [List.length_map] at hj'
    simp only [List.getElem_map, List.getElem_range', Nat.one_mul]
    exact h.tailSize (.tail (List.getElem?_eq_getElem hj'))
  have hsum : ∀ (n : Nat) (ns : List Nat), ns.foldl (· + ·) n = ns.sum + n := by
    intro n ns
    rw [List.sum_eq_foldl, Nat.add_comm]
    exact @List.foldl_assoc Nat (· + ·) _ ns n 0
  rw [Group.totalSize, h.length_tails, h.min, h.size, ← htails, ← hsum, List.foldl_map]

theorem sum_drop_sizes (h : log.group.OpenOn s id log.disk) {j : Nat} (hj : j ≤ s.tails.length) :
    (log.sizes.drop j).sum =
      ((s.tails.map fun f => (log.disk.content f).length).drop j).sum +
        (log.disk.content id).length := by
  rw [h.sizes, h.files, List.map_append, List.drop_append_of_le_length (by rwa [List.length_map]),
    List.sum_append, List.map_singleton, List.sum_singleton]

theorem surplus_eq (h : log.group.OpenOn s id log.disk)
    (hlimit : 0 < log.group.config.totalSizeLimit) :
    log.group.surplus s log.disk = excess log.group.config.totalSizeLimit
      ((s.tails.map fun f => (log.disk.content f).length).sum + (log.disk.content id).length)
      (s.tails.map fun f => (log.disk.content f).length) := by
  rw [surplus, if_neg (Nat.ne_of_gt hlimit), h.totalSize]

/-- Without the surplus the log is within its limit, or has no tail any more. -/
theorem surplus_fits (h : log.group.OpenOn s id log.disk)
    (hlimit : 0 < log.group.config.totalSizeLimit) :
    (log.sizes.drop (log.group.surplus s log.disk)).sum ≤ log.group.config.totalSizeLimit ∨
      log.group.surplus s log.disk = s.tails.length := by
  rw [h.sum_drop_sizes (surplus_le ..), h.surplus_eq hlimit]
  have hfits := excess_fits log.group.config.totalSizeLimit (log.disk.content id).length
    (s.tails.map fun f => (log.disk.content f).length)
  rwa [List.length_map] at hfits

/-- With more than that, it would be above its limit. -/
theorem surplus_least (h : log.group.OpenOn s id log.disk)
    (hlimit : 0 < log.group.config.totalSizeLimit) {j : Nat}
    (hj : j < log.group.surplus s log.disk) :
    log.group.config.totalSizeLimit < (log.sizes.drop j).sum := by
  rw [h.sum_drop_sizes (Nat.le_trans (Nat.le_of_lt hj) (surplus_le ..))]
  rw [h.surplus_eq hlimit] at hj
  exact excess_least hj

end OpenOn

end Group

/-! ## Deleting -/

/-- The `k` oldest tails of the log have been deleted, and nothing else has been done to it. -/
structure Log.Deleted (log : Log) (k : Nat) (log' : Log) : Prop where
  config : log'.group.config = log.group.config
  head : log'.group.head = log.group.head
  max : log'.group.maxIndex = log.group.maxIndex
  min : log'.group.minIndex = log.group.minIndex + k
  le : log'.group.minIndex ≤ log'.group.maxIndex
  contents : log'.disk.contents = log.disk.contents
  /-- The names of the tails lead to nothing any more. -/
  deleted : ∀ i, log.group.minIndex ≤ i → i < log'.group.minIndex →
    ∃ p f, log.disk.resolve (log.group.segmentRoute i) = .ok (p, .file f) ∧
      log'.disk.find? p = none
  /-- All other segments are there, the head among them. -/
  retained : ∀ i, log'.group.minIndex ≤ i → i ≤ log'.group.maxIndex →
    ∃ f, log.disk.fileAt (log.group.segmentRoute i) = .ok f ∧
      log'.disk.fileAt (log'.group.segmentRoute i) = .ok f
  /-- So is everything else on the disk. -/
  others : ∀ p, (∀ i, log.group.minIndex ≤ i → i < log'.group.minIndex →
    log.disk.locate (log.group.segmentRoute i) ≠ .ok p) → log'.disk.find? p = log.disk.find? p

/-- The tails that are not on the shelf any more have been deleted. -/
theorem Group.OpenOn.deleted (h : log.group.OpenOn s id log.disk)
    (h' : log'.group.OpenOn (s.drop k) id log'.disk) (hk : k ≤ s.tails.length)
    (hconfig : log'.group.config = log.group.config)
    (hcontents : log'.disk.contents = log.disk.contents)
    (hothers : ∀ p, (∀ j < k, p ≠ s.place ++ [tailName (s.first + j)]) →
      log'.disk.find? p = log.disk.find? p) : log.Deleted k log' := by
  have hmin : log'.group.minIndex = s.first + k := h'.min
  have hmax : log'.group.maxIndex = s.last := h'.max.trans (Shelf.last_drop hk)
  -- those that have gone were tails, the names of which led to their files
  have hgone : ∀ j, j < k → ∃ f, log.disk.resolve (log.group.segmentRoute (s.first + j)) =
      .ok (s.place ++ [tailName (s.first + j)], .file f) := by
    intro j hj
    have hlt : j < s.tails.length := Nat.lt_of_lt_of_le hj hk
    refine ⟨s.tails[j], ?_⟩
    rw [segmentRoute, if_neg (by rw [h.max, Shelf.last]; omega), h.tailRoute]
    exact h.on.resolve (.tail (List.getElem?_eq_getElem hlt))
  refine ⟨hconfig, h'.head.trans h.head.symm, hmax.trans h.max.symm, by rw [hmin, h.min],
    by rw [hmin, hmax, Shelf.last]; omega, hcontents, fun i hi hlt => ?_, fun i hi hle => ?_,
    fun p hp => hothers p fun j hj heq => ?_⟩
  · rw [h.min] at hi
    obtain ⟨j, rfl⟩ := Nat.exists_eq_add_of_le hi
    have hj : j < k := by omega
    obtain ⟨f, hresolve⟩ := hgone j hj
    exact ⟨_, f, hresolve, h'.on.find?_eq_none fun _ => Shelf.not_names_drop hj⟩
  · rw [hmin] at hi
    rw [hmax, Shelf.last] at hle
    obtain ⟨j, rfl⟩ := Nat.exists_eq_add_of_le hi
    have hj : k + j < s.files.length := by
      rw [h.files, List.length_append, List.length_singleton]
      omega
    have hfile : (s.drop k).files[j]? = s.files[k + j]? := by
      rw [Shelf.files_drop hk, List.getElem?_drop]
    obtain ⟨p, hp⟩ := h.resolve_segment (List.getElem?_eq_getElem hj)
    obtain ⟨p', hp'⟩ := h'.resolve_segment (hfile.trans (List.getElem?_eq_getElem hj))
    rw [← Nat.add_assoc] at hp
    exact ⟨_, Disk.fileAt_of_file hp, Disk.fileAt_of_file hp'⟩
  · obtain ⟨f, hresolve⟩ := hgone j hj
    refine hp (s.first + j) (by rw [h.min]; omega) (by omega) ?_
    rw [heq]
    exact (Disk.resolve_eq_ok_iff.1 hresolve).1

/-! ## What is read -/

/-- The records in the chapters that are left are the last ones. -/
theorem Chapters.entries_drop (first : Nat) (hk : k ≤ c.tails.length) :
    (c.drop k).entries (first + k) <:+ c.entries first ∧
      (c.drop k).entries (first + k) =
        (c.entries first).filter fun e => decide (first + k ≤ e.index) := by
  have hsegments : c.segments.drop k = (c.drop k).segments := by
    rw [segments, List.drop_append_of_le_length hk]
    rfl
  have hlength : (c.segments.take k).length = k := by
    rw [List.length_take, segments, List.length_append, List.length_singleton]
    omega
  have hentries : c.entries first =
      entriesOf first (c.segments.take k) ++ (c.drop k).entries (first + k) := by
    have hsplit := entriesOf_append first (c.segments.take k) (c.segments.drop k)
    rwa [List.take_append_drop, hlength, hsegments] at hsplit
  refine ⟨⟨_, hentries.symm⟩, ?_⟩
  rw [hentries, List.filter_append, List.filter_eq_nil_iff.2, List.nil_append,
    List.filter_eq_self.2]
  · intro e he
    exact decide_eq_true (mem_entriesOf he).1
  · intro e he
    have hlt := (mem_entriesOf he).2
    rw [hlength] at hlt
    simpa using hlt

/-- A new reader yields the messages of a log, if it accepts all of them. -/
theorem Log.Legible.yields (hlegible : log.Legible) (h : log.Shows s id c) :
    ∃ r, log.newReader = .ok r ∧ Yields log r (log.entries.map Entry.message) := by
  have hfits := h.fits_of_legible hlegible
  obtain ⟨r, hr, hahead, hmax⟩ := newReader_ahead h
  refine ⟨r, hr, ?_⟩
  rw [h.entries ⟨hfits, Record.torn_nil _⟩, c.map_message_entries]
  exact hahead.yields h fun m hm => hmax ▸ hfits m hm

/-! ## Checking the limits -/

namespace Log

/-- The log with its head sealed, if that has grown to its limit. -/
def sealIfDue (log : Log) : Except LogError Log :=
  if log.group.config.headSizeLimit ≤ log.group.headSize then log.rotate else .ok log

variable {mid : Log}

theorem sealIfDue_eq (log : Log) : log.sealIfDue =
    (log.group.sealIfDue log.disk).map fun r => { log with group := r.1, disk := r.2 } := by
  rw [sealIfDue, Group.sealIfDue]
  split
  next =>
    rw [rotate]
    rcases log.group.rotate log.disk with e | r <;> rfl
  next => rfl

theorem sealIfDue_ok (hmid : log.sealIfDue = .ok mid) :
    ∃ g d, log.group.sealIfDue log.disk = .ok (g, d) ∧
      mid = { log with group := g, disk := d } := by
  rw [sealIfDue_eq] at hmid
  rcases hgroup : log.group.sealIfDue log.disk with e | r <;> rw [hgroup] at hmid <;> cases hmid
  exact ⟨r.1, r.2, rfl, rfl⟩

theorem checkLimits_of_error {e : LogError} (hopen : log.group.isClosed = false)
    (hseal : log.sealIfDue = .error e) : log.checkLimits = (.error e, log) := by
  rw [sealIfDue_eq] at hseal
  rcases hgroup : log.group.sealIfDue log.disk with e' | r <;> rw [hgroup] at hseal <;> cases hseal
  rw [checkLimits, Group.checkLimits_of_error hopen hgroup]
  rfl

/-- The log shows its chapters when its head has been sealed. -/
theorem shows_of_sealIfDue (h : log.Shows s id c)
    (hnumber : log.group.config.headSizeLimit ≤ log.group.headSize →
      log.group.maxIndex < Saturating.ceiling)
    (hmid : log.sealIfDue = .ok mid) :
    ∃ s' id' c', mid.Shows s' id' c' ∧ log.Sealing s c mid s' c' := by
  obtain ⟨g, d, hseal, rfl⟩ := sealIfDue_ok hmid
  obtain ⟨s', id', c', h', hsealing, -⟩ := h.archives.sealIfDue hnumber hseal
  exact ⟨s', id', c', h'.shows, hsealing⟩

/-- Sealing makes no difference to the records in a log. -/
theorem Sealing.entries {s' : Shelf} {c' : Chapters} (h : log.Sealing s c log' s' c') :
    c'.entries s'.first = c.entries s.first := by
  rw [h.first]
  rcases h.shelf with ⟨-, rfl⟩ | ⟨_, _, -, -, rfl⟩
  · rfl
  · exact c.entries_sealHead s.first

theorem Sealing.all {s' : Shelf} {c' : Chapters} (h : log.Sealing s c log' s' c') :
    c'.all = c.all := by
  rw [← c'.map_message_entries s'.first, h.entries, c.map_message_entries]

/-- If sealing the head is due and succeeds, it is sealed when the limits are checked. -/
theorem seals_of_sealIfDue {w : Workbench} (hlog : w.log? = some log)
    (hdue : log.group.config.headSizeLimit ≤ log.group.headSize)
    (hmid : log.sealIfDue = .ok mid) : w.seals (.act .checkLimits) = true := by
  obtain ⟨g, hg, rfl⟩ := Option.map_eq_some_iff.1 hlog
  rw [sealIfDue, if_pos hdue, rotate] at hmid
  rcases hrotate : g.rotate w.disk with e | r <;> rw [hrotate] at hmid
  · cases hmid
  · simp only [Workbench.seals, hg, Option.any_some, hrotate, Except.isOk, Except.toBool,
      Bool.and_true]
    exact decide_eq_true hdue

/-- Once the head is sealed, if that is due, the fewest of the oldest tails are deleted that
    leave a log within its limit. -/
theorem checkLimits_of_sealed (hopen : log.group.isClosed = false)
    (hmid : log.sealIfDue = .ok mid) (h : mid.Shows s id c)
    (hlimit : 0 < mid.group.config.totalSizeLimit) :
    ∃ k log', log.checkLimits = (.ok (), log') ∧ k ≤ s.tails.length ∧ mid.Deleted k log' ∧
      log'.Shows (s.drop k) id (c.drop k) ∧ log'.sizes = mid.sizes.drop k ∧
      (log'.sizes.sum ≤ mid.group.config.totalSizeLimit ∨
        log'.group.minIndex = log'.group.maxIndex) ∧
      ∀ j < k, mid.group.config.totalSizeLimit < (mid.sizes.drop j).sum := by
  obtain ⟨g, d, hseal, rfl⟩ := sealIfDue_ok hmid
  obtain ⟨g', d', hcheck, hopened, hconfig, hcontents, hothers⟩ :=
    h.opened.checkLimits_of_sealed hopen hseal
  have hk := g.surplus_le s d
  have hcontent : ∀ f, d'.content f = d.content f := fun f => by
    rw [Disk.content, hcontents, Disk.content]
  have hdeleted : Deleted { log with group := g, disk := d } (g.surplus s d)
      { log with group := g', disk := d' } :=
    h.opened.deleted hopened hk hconfig hcontents hothers
  have hsizes : sizes { log with group := g', disk := d' } =
      (sizes { log with group := g, disk := d }).drop (g.surplus s d) := by
    rw [Group.OpenOn.sizes hopened, h.opened.sizes, Shelf.files_drop hk, ← List.map_drop]
    exact List.map_congr_left fun f _ => congrArg List.length (hcontent f)
  refine ⟨g.surplus s d, { log with group := g', disk := d' }, ?_, hk, hdeleted,
    ⟨h.registry, hopened, (h.fill.drop _).congr hcontent, fun m hm =>
      h.short m ((c.all_drop_suffix _).subset hm)⟩, hsizes, ?_, fun j hj =>
    h.opened.surplus_least hlimit hj⟩
  · rw [checkLimits, hcheck]
    rfl
  · rw [hsizes]
    refine (h.opened.surplus_fits hlimit).imp_right fun hall => ?_
    rw [hdeleted.min, hdeleted.max, h.opened.min, h.opened.max, hall]
    rfl

/-- After any run in an empty directory, the limits of an open log are checked whose total size
    is limited. The head is sealed if that is due; if it cannot be, nothing is done.
    Then the oldest tails are deleted, as few as leave a log within its limit, or all of them.
    A new reader yields the messages that are left, unless one is longer than the log has been
    opened for. They are the last ones of those that it has yielded before. -/
theorem retains_newest {ok : LogConfig → Prop} {dir : String} {w : Workbench}
    (hok : ∀ config, ok config → config.dir = dir)
    (hdir : w.disk.list (.ofText dir) = .ok []) (hgroup : w.group = none) {es : List Incident}
    (hes : ∀ e ∈ es, e.Uses ok)
    (hrotations : w.rotations dir (es ++ [.act .checkLimits]) < 2 ^ 64)
    (hlog : (w.after dir es).log? = some log) (hopen : log.group.isClosed = false)
    (hlimit : 0 < log.group.config.totalSizeLimit) :
    (∀ e, log.sealIfDue = .error e → log.checkLimits = (.error e, log)) ∧
    ∀ mid, log.sealIfDue = .ok mid → ∃ k log', log.checkLimits = (.ok (), log') ∧
      mid.Deleted k log' ∧ log'.sizes = mid.sizes.drop k ∧
      (log'.sizes.sum ≤ log.group.config.totalSizeLimit ∨
        log'.group.minIndex = log'.group.maxIndex) ∧
      (∀ j < k, log.group.config.totalSizeLimit < (mid.sizes.drop j).sum) ∧
      (log'.Legible → ∃ r, log'.newReader = .ok r ∧
        Yields log' r (log'.entries.map Entry.message)) ∧
      (log.Legible → log'.Legible ∧
        (∃ r, log.newReader = .ok r ∧ Yields log r (log.entries.map Entry.message)) ∧
        log'.entries <:+ log.entries ∧
        log'.entries = log.entries.filter fun e => decide (log'.group.minIndex ≤ e.index)) := by
  refine ⟨fun e => checkLimits_of_error hopen, fun mid hmid => ?_⟩
  rw [Workbench.rotations_append] at hrotations
  obtain ⟨s, c, rest, hkept, hlast⟩ := Kept.of_use hok hdir hgroup es hes
    (Nat.lt_of_le_of_lt (Nat.le_add_right ..) hrotations)
  obtain ⟨-, id, hshows⟩ := hkept.shows hlog hopen
  -- the head that is sealed has not had the largest number
  have hnumber : log.group.config.headSizeLimit ≤ log.group.headSize →
      log.group.maxIndex < Saturating.ceiling := by
    intro hdue
    rw [Workbench.rotations, seals_of_sealIfDue hlog hdue hmid, Bool.toNat_true] at hrotations
    rw [hshows.opened.max]
    refine Nat.lt_of_lt_of_le ?_ (Nat.le_pred_of_lt hrotations)
    omega
  obtain ⟨s', id', c', hshows', hsealing⟩ := shows_of_sealIfDue hshows hnumber hmid
  have hconfig := hsealing.config
  obtain ⟨k, log', hcheck, hk, hdeleted, hshows'', hsizes, hfits, hleast⟩ :=
    checkLimits_of_sealed hopen hmid hshows' (hconfig ▸ hlimit)
  rw [hconfig] at hfits hleast
  refine ⟨k, log', hcheck, hdeleted, hsizes, hfits, hleast, fun h => h.yields hshows'',
    fun hlegible => ?_⟩
  have hall := hshows.fits_of_legible hlegible
  have hall'' : ∀ m ∈ (c'.drop k).all, m.envelope.length ≤ log'.group.config.maxRecordSize := by
    intro m hm
    rw [hdeleted.config, hconfig]
    exact hall m (hsealing.all ▸ (c'.all_drop_suffix k).subset hm)
  obtain ⟨hsuffix, hfilter⟩ :=
    Chapters.entries_drop s'.first (hshows'.fill.length_tails ▸ hk)
  have hentries : log'.entries = (c'.drop k).entries (s'.first + k) :=
    hshows''.entries ⟨hall'', Record.torn_nil _⟩
  rw [hsealing.entries, ← hshows.entries ⟨hall, Record.torn_nil _⟩, ← hentries] at hsuffix hfilter
  refine ⟨hshows''.legible hall'', hlegible.yields hshows, hsuffix, ?_⟩
  rw [hdeleted.min, hshows'.opened.min]
  exact hfilter

/-! ### Logs with a limit -/

/-- A run that leaves three messages in a log, each in a segment of its own, two of which are
    within its limit. -/
def threeHeights : List WorkbenchAction :=
  [.openLog { LogConfig.dev "root" with headSizeLimit := 20, totalSizeLimit := 60 } false,
    .write (.endHeight ⟨5⟩), .checkLimits, .write (.endHeight ⟨6⟩), .checkLimits,
    .write (.endHeight ⟨7⟩)]

theorem log_threeHeights : ∃ log mid,
    ((Workbench.empty "root").after "root" (threeHeights.map .act)).log? = some log ∧
      log.group.isClosed = false ∧ log.group.config.totalSizeLimit = 60 ∧
      log.group.minIndex = 0 ∧ log.sealIfDue = .ok mid ∧ mid.group.minIndex = 0 ∧
      mid.group.maxIndex = 3 ∧ mid.sizes = [25, 25, 25, 0] := by
  have hall : (((Workbench.empty "root").after "root" (threeHeights.map .act)).log?.any fun log =>
      !log.group.isClosed && log.group.config.totalSizeLimit == 60 && log.group.minIndex == 0 &&
        log.sealIfDue.toOption.any fun mid =>
          mid.group.minIndex == 0 && mid.group.maxIndex == 3 && mid.sizes == [25, 25, 25, 0]) =
      true := by
    decide +kernel
  simp only [Option.any_eq_true, Bool.and_eq_true, Bool.not_eq_true', beq_iff_eq] at hall
  obtain ⟨log, hlog, ⟨⟨hopen, hlimit⟩, hfirst⟩, mid, hmid, ⟨hmin, hmax⟩, hsizes⟩ := hall
  refine ⟨log, mid, hlog, hopen, hlimit, hfirst, ?_, hmin, hmax, hsizes⟩
  rcases hseal : log.sealIfDue with e | mid' <;> rw [hseal] at hmid <;> cases hmid
  rfl

theorem chapters_threeHeights :
    Chapters.empty.after "root" (Workbench.empty "root") (threeHeights.map .act) =
      ⟨[[.endHeight ⟨5⟩], [.endHeight ⟨6⟩]], [.endHeight ⟨7⟩]⟩ := by
  decide +kernel

/-- The oldest message is deleted, when the newest one has been sealed. -/
theorem retains_newest_threeHeights : ∃ log log' r r',
    ((Workbench.empty "root").after "root" (threeHeights.map .act)).log? = some log ∧
      log.checkLimits = (.ok (), log') ∧ log'.group.minIndex = 1 ∧ log'.sizes = [25, 25, 0] ∧
      log.newReader = .ok r ∧
      Yields log r [.endHeight ⟨5⟩, .endHeight ⟨6⟩, .endHeight ⟨7⟩] ∧
      log'.newReader = .ok r' ∧ Yields log' r' [.endHeight ⟨6⟩, .endHeight ⟨7⟩] := by
  obtain ⟨log, mid, hlog, hopen, hlimit, hfirst, hmid, hmin, hmax, hsizes⟩ := log_threeHeights
  have hes : ∀ e ∈ threeHeights.map Incident.act, e.Operates fun config =>
      config.dir = "root" ∧ config.maxRecordSize = 64 * 1024 := by
    simp [threeHeights, Incident.Operates, WorkbenchAction.Operates, LogConfig.dev]
  have hrotations : ∀ es : List Incident, es.length ≤ 7 →
      (Workbench.empty "root").rotations "root" es < 2 ^ 64 := fun es hlength =>
    Nat.lt_of_le_of_lt (Workbench.rotations_le_length _ _ _)
      (Nat.lt_of_le_of_lt hlength (by decide))
  obtain ⟨-, hsealed⟩ := retains_newest (fun _ h => h.1) list_root rfl
    (fun e he => .inl (hes e he)) (hrotations _ (by decide)) hlog hopen (by rw [hlimit]; decide)
  obtain ⟨k, log', hcheck, hdeleted, hsizes', hfits, hleast, hyields', hyields⟩ := hsealed mid hmid
  rw [hlimit, hsizes] at hleast
  rw [hlimit, hsizes', hsizes, hdeleted.min, hdeleted.max, hmin, hmax, Nat.zero_add] at hfits
  -- the log is above its limit with all tails, and within it without the oldest one
  obtain rfl : k = 1 := by
    rcases k with _ | _ | k
    · rcases hfits with hfits | hfits <;> exact absurd hfits (by decide)
    · rfl
    · exact absurd (hleast 1 (Nat.succ_lt_succ (Nat.succ_pos k))) (by decide)
  have hfirst' : log'.group.minIndex = 1 := by rw [hdeleted.min, hmin]
  obtain ⟨s, rest, hkept, -⟩ :=
    Kept.of_run (fun _ h => h.1) list_root rfl _ hes (hrotations _ (by decide))
  have hlegible := hkept.legible (fun _ h => h.2) hlog hopen
  obtain ⟨hlegible', ⟨r, hr, hall⟩, -, hentries'⟩ := hyields hlegible
  obtain ⟨r', hr', hleft⟩ := hyields' hlegible'
  -- the records are those of the three chapters, of which the first one goes
  obtain ⟨-, id, hshows⟩ := hkept.shows hlog hopen
  have hentries := hshows.entries ⟨hshows.fits_of_legible hlegible, Record.torn_nil _⟩
  rw [← hshows.opened.min, hfirst] at hentries
  have htails : 1 ≤ (Chapters.empty.after "root" (Workbench.empty "root")
      (threeHeights.map .act)).tails.length := by
    rw [chapters_threeHeights]
    decide
  rw [hentries', hfirst', hentries, ← (Chapters.entries_drop 0 htails).2,
    Chapters.map_message_entries, chapters_threeHeights] at hleft
  rw [hentries, Chapters.map_message_entries, chapters_threeHeights] at hall
  rw [hsizes] at hsizes'
  exact ⟨log, log', r, r', hlog, hcheck, hfirst', hsizes', hr, hall, hr', hleft⟩

/-- A log that is within its limit has been opened again for messages that are shorter than the
    one in it. -/
def overlong : Workbench :=
  (Workbench.empty "root").after "root" ([.openLog (.dev "root") false, .write (.endHeight ⟨5⟩),
    .openLog { LogConfig.dev "root" with maxRecordSize := 1, totalSizeLimit := 1000 } false].map
      .act)

theorem read_overlong :
    (((overlong.run .checkLimits).2.run (.newReader "r")).2.run (.read "r")).1 =
      .read [.error (.corrupt "root/WAL" 0 (.record (.tooLong 17 1)))] (0, 0) := by
  decide +kernel

/-- The message is in the log and stays there, but a new reader does not yield it. -/
theorem overlong_not_yielded :
    (overlong.log?.any fun log =>
      !log.group.isClosed && log.group.config.totalSizeLimit == 1000 && log.sizes == [25] &&
        (log.disk.fileAt (log.group.segmentRoute 0)).toOption.map log.disk.content ==
          some (frames [.endHeight ⟨5⟩])) = true ∧
      (overlong.run .checkLimits).1 = .done ∧
      (((overlong.run .checkLimits).2.run (.newReader "r")).2.run (.read "r")).1 =
        .read [.error (.corrupt "root/WAL" 0 (.record (.tooLong 17 1)))] (0, 0) := by
  refine ⟨?_, ?_, read_overlong⟩ <;> decide +kernel

end Log

end ConsensusCore
