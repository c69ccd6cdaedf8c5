import ConsensusCore.Proofs.Log.Shelf

/-!
# Groups on a shelf

A group that is open keeps in mind what is on the shelf: the numbers from the oldest
tail to the head, the file of the head and its length (`Group.OpenOn`). Each operation of
the group takes it from one shelf to another, and keeps it in line with the shelf.

* writing leaves the shelf as it is (`OpenOn.write`);
* rotating seals the head (`OpenOn.rotate_of_admits`), or fails and changes nothing;
* trimming takes away the oldest tails, as many as are in excess (`OpenOn.trim`);
* opening finds what was left on the shelf (`openIn_of_head`, `openIn_of_none`), but begins
  with number 0 again if there are no tails.

Apart from writing, only the repair of the head on opening changes the content of a file.
-/

namespace ConsensusCore

open LogConfig Segment

/-- The shelf with its head sealed, and a new one. -/
def Shelf.rotated (s : Shelf) (id new : FileId) : Shelf := (s.sealHead id).withHead new

theorem Shelf.last_rotated (s : Shelf) (id new : FileId) :
    (s.rotated id new).last = s.last + 1 := by
  simp only [rotated, sealHead, withHead, last, List.length_append, List.length_singleton]
  omega

theorem Shelf.files_rotated {s : Shelf} {id : FileId} (hid : s.head = some id) (new : FileId) :
    (s.rotated id new).files = s.files ++ [new] := by
  simp [hid, rotated, sealHead, withHead, files]

theorem Shelf.rotated_drop {s : Shelf} {k : Nat} (hk : k ≤ s.tails.length) (id new : FileId) :
    (s.drop k).rotated id new = (s.rotated id new).drop k := by
  simp only [rotated, sealHead, withHead, drop, List.drop_append_of_le_length hk]

namespace Group

/-- The group is open on a shelf, with a head. -/
structure OpenOn (g : Group) (s : Shelf) (id : FileId) (d : Disk) : Prop where
  on : s.On d
  dir : dir g.config = s.dir
  head : g.head = some id
  shelf : s.head = some id
  min : g.minIndex = s.first
  max : g.maxIndex = s.last
  size : g.headSize = (d.content id).length

/-- How many of the oldest segments with some sizes have to go, for the total size to
    come down to a limit. -/
def excess (limit : Nat) : Nat → List Nat → Nat
  | _, [] => 0
  | total, n :: sizes => if total ≤ limit then 0 else excess limit (total - n) sizes + 1

/-- How many of the oldest tails have to go when the limits are checked. -/
def surplus (g : Group) (s : Shelf) (d : Disk) : Nat :=
  if g.config.totalSizeLimit = 0 then 0
  else excess g.config.totalSizeLimit (g.totalSize d) (s.tails.map fun f => (d.content f).length)

/-- The group with its head sealed if it has grown to its limit. -/
def sealIfDue (g : Group) (d : Disk) : Except LogError (Group × Disk) :=
  if g.config.headSizeLimit ≤ g.headSize then g.rotate d else .ok (g, d)

variable {g g' : Group} {s : Shelf} {id : FileId} {d d' : Disk} {config : LogConfig}

theorem excess_le (limit total : Nat) (sizes : List Nat) :
    excess limit total sizes ≤ sizes.length := by
  induction sizes generalizing total with
  | nil => exact Nat.le_refl 0
  | cons n sizes ih =>
    rw [excess]
    split
    · exact Nat.zero_le _
    · exact Nat.succ_le_succ (ih _)

theorem surplus_le (g : Group) (s : Shelf) (d : Disk) : g.surplus s d ≤ s.tails.length := by
  rw [surplus]
  split
  · exact Nat.zero_le _
  · exact Nat.le_trans (excess_le _ _ _) (Nat.le_of_eq (List.length_map _))

theorem rotate_keeps (h : g.rotate d = .ok (g', d')) :
    g'.config = g.config ∧ g'.minIndex = g.minIndex := by
  rw [rotate] at h
  split at h
  · cases h
  split at h
  · cases h
  split at h
  · cases h
  · cases h
    exact ⟨rfl, rfl⟩

/-- Nothing is deleted if the total size is not limited. -/
theorem minIndex_checkLimits (h : g.config.totalSizeLimit = 0) :
    (g.checkLimits d).2.1.minIndex = g.minIndex := by
  rw [checkLimits]
  split
  · rfl
  cases hseal : g.sealIfDue d with
  | error e =>
    rw [sealIfDue] at hseal
    simp only [hseal]
  | ok r =>
    obtain ⟨g', d'⟩ := r
    have hkeeps : g'.config = g.config ∧ g'.minIndex = g.minIndex := by
      rw [sealIfDue] at hseal
      split at hseal
      · exact rotate_keeps hseal
      · cases hseal
        exact ⟨rfl, rfl⟩
    rw [sealIfDue] at hseal
    simp only [hseal, if_pos (hkeeps.1 ▸ h), hkeeps.2]

theorem checkLimits_of_error {e : LogError} (hopen : g.isClosed = false)
    (hseal : g.sealIfDue d = .error e) : g.checkLimits d = (.error e, g, d) := by
  rw [sealIfDue] at hseal
  simp only [checkLimits, hopen, hseal, Bool.false_eq_true, if_false]

namespace OpenOn

variable (h : g.OpenOn s id d)
include h

theorem isClosed : g.isClosed = false := by simp [Group.isClosed, h.head]

theorem head_eq : g.head = s.head := h.head.trans h.shelf.symm

theorem files : s.files = s.tails ++ [id] := by simp [Shelf.files, h.shelf]

theorem lt : id < d.contents.length := h.on.lt_head h.shelf

theorem headRoute : headRoute g.config = s.dir ++ [headName] := by rw [Group.headRoute, h.dir]

theorem tailRoute (i : Nat) : tailRoute g.config i = s.dir ++ [tailName i] := by
  rw [Group.tailRoute, h.dir]

theorem resolve_head :
    d.resolve (Group.headRoute g.config) = .ok (s.place ++ [headName], .file id) := by
  rw [h.headRoute]
  exact h.on.resolve (.head h.shelf)

/-- Each number leads to the file of its segment. -/
theorem resolve_segment {k : Nat} {f : FileId} (hf : s.files[k]? = some f) :
    ∃ p, d.resolve (g.segmentRoute (s.first + k)) = .ok (p, .file f) := by
  rw [h.files] at hf
  have hk : k ≤ s.tails.length := by
    have := (List.getElem?_eq_some_iff.1 hf).1
    simp only [List.length_append, List.length_singleton] at this
    omega
  rw [segmentRoute]
  rw [h.max, Shelf.last]
  rcases Nat.eq_or_lt_of_le hk with rfl | hlt
  · have hid : f = id := by simpa [eq_comm] using hf
    exact ⟨_, by rw [if_pos (Nat.le_refl _), h.resolve_head, hid]⟩
  · rw [List.getElem?_append_left hlt] at hf
    refine ⟨s.place ++ [tailName (s.first + k)], ?_⟩
    rw [if_neg (by omega), h.tailRoute]
    exact h.on.resolve (.tail hf)

/-! ## Writing -/

/-- Other bytes in the head are as good, as long as the group knows their length. -/
theorem setContent (bs : Bytes) :
    { g with headSize := bs.length }.OpenOn s id (d.setContent id bs) where
  on := h.on.setContent id bs
  dir := h.dir
  head := h.head
  shelf := h.shelf
  min := h.min
  max := h.max
  size := by simp [Disk.content_setContent h.lt]

/-- What is written goes to the end of the head. -/
theorem write (bs : Bytes) :
    { g with headSize := g.headSize + bs.length }.OpenOn s id (d.append id bs) := by
  have hset := h.setContent (d.content id ++ bs)
  rwa [List.length_append, ← h.size] at hset

/-! ## Rotating -/

/-- The head gets the name of a tail, if the directory admits that. -/
theorem rename (hadm : s.dir.Admits (tailName s.last)) :
    ∃ d', d.rename (Group.headRoute g.config) (Group.tailRoute g.config g.maxIndex) = .ok d' ∧
      (s.sealHead id).On d' ∧ d'.contents = d.contents := by
  refine ⟨_, ?_, h.on.sealHead h.shelf hadm, rfl⟩
  refine Disk.rename_file h.resolve_head ?_ (h.on.find?_ne_directory _)
  rw [h.tailRoute, h.max, Disk.locate_entry h.on.locate h.on.isDir (isEntry_tailName _)]
  exact ⟨hadm, rfl⟩

theorem rename_error (hadm : ¬s.dir.Admits (tailName s.last)) :
    ∃ e, d.rename (Group.headRoute g.config) (Group.tailRoute g.config g.maxIndex) = .error e := by
  rw [Disk.rename]
  rw [h.resolve_head, h.tailRoute, h.max]
  cases hl : d.locate (s.dir ++ [tailName s.last]) with
  | error e => exact ⟨e, rfl⟩
  | ok q =>
    rw [Disk.locate_entry h.on.locate h.on.isDir (isEntry_tailName _)] at hl
    exact absurd hl.1 hadm

/-- The head is sealed, if its new name is admitted, and an empty one is in its place. -/
theorem rotate_of_admits (hadm : s.dir.Admits (tailName s.last))
    (hlast : s.last < Saturating.ceiling) : ∃ g' d', g.rotate d = .ok (g', d') ∧
      g'.OpenOn (s.rotated id d.contents.length) d.contents.length d' ∧
      g'.config = g.config ∧ ∀ f, d'.content f = d.content f := by
  obtain ⟨d₁, hren, hon, hcontents⟩ := h.rename hadm
  have hadm' : (s.sealHead id).dir.Admits headName := h.on.admits _ _ (.head h.shelf)
  have hopen : d₁.openFile (Group.headRoute g.config) =
      .ok (d₁.create (s.place ++ [headName]), d₁.contents.length) := by
    refine Disk.openFile_of_none ?_ (hon.find?_eq_none fun f hf => ?_)
    · rw [h.headRoute]
      exact (Disk.locate_entry hon.locate hon.isDir isEntry_headName).2 ⟨hadm', rfl⟩
    · cases Shelf.names_head_iff.1 hf
  have hon' := hon.create rfl hadm'
  have hcontent : ∀ f, (d₁.create (s.place ++ [headName])).content f = d.content f := by
    intro f
    rw [Disk.content_create, Disk.content, hcontents]
    rfl
  -- renaming leaves all files where they are, so the new one has the next number
  rw [hcontents] at hopen hon'
  refine ⟨{ g with
    head := some d.contents.length
    headSize := 0
    maxIndex := Saturating.add g.maxIndex 1 }, _,
    by simp only [Group.rotate, h.head, hren, hopen], ?_, rfl, hcontent⟩
  refine ⟨hon', h.dir, rfl, rfl, h.min, ?_, ?_⟩
  · simp only [Saturating.add, h.max, Shelf.last_rotated]
    exact Nat.min_eq_left hlast
  · rw [hcontent, Disk.content_length_contents]
    rfl

theorem rotate_of_not_admits (hadm : ¬s.dir.Admits (tailName s.last)) :
    ∃ e, g.rotate d = .error (.disk e) := by
  obtain ⟨e, he⟩ := h.rename_error hadm
  exact ⟨e, by simp only [Group.rotate, h.head, he]⟩

/-- What rotating comes to, if it succeeds. -/
theorem rotate_ok (hlast : s.last < Saturating.ceiling) (hrotate : g.rotate d = .ok (g', d')) :
    g'.OpenOn (s.rotated id d.contents.length) d.contents.length d' ∧
      g'.config = g.config ∧ ∀ f, d'.content f = d.content f := by
  by_cases hadm : s.dir.Admits (tailName s.last)
  · obtain ⟨g'', d'', hok, hopen⟩ := h.rotate_of_admits hadm hlast
    cases hrotate.symm.trans hok
    exact hopen
  · obtain ⟨e, he⟩ := h.rotate_of_not_admits hadm
    cases hrotate.symm.trans he

/-! ## Trimming -/

theorem tailSize {i : Nat} {f : FileId} (hf : s.Names (tailName i) f) :
    g.tailSize d i = (d.content f).length := by
  simp [Group.tailSize, h.tailRoute, Disk.sizeAt, h.on.resolve hf]

/-- Without its file, the oldest tail is no segment of the group any more. -/
theorem remove_oldest {f : FileId} {rest : List FileId} (ht : s.tails = f :: rest) :
    ∃ d', d.remove (Group.tailRoute g.config g.minIndex) = .ok d' ∧
      { g with minIndex := g.minIndex + 1 }.OpenOn (s.drop 1) id d' ∧
      d'.contents = d.contents ∧
      ∀ p, p ≠ s.place ++ [tailName s.first] → d'.find? p = d.find? p := by
  refine ⟨_, ?_, ⟨h.on.drop_one ht, h.dir, h.head, h.shelf, ?_, ?_, h.size⟩, rfl,
    fun p hp => Disk.find?_erase_of_ne hp⟩
  · rw [h.tailRoute, h.min]
    exact Disk.remove_file (h.on.resolve (Shelf.names_oldest ht))
  · rw [h.min]
    rfl
  · rw [h.max]
    simp only [Shelf.last, Shelf.drop, ht, List.length_cons, List.drop_succ_cons, List.drop_zero]
    omega

/-- The tails in excess of the limit are taken away, and nothing else. -/
theorem trim (total : Nat) : ∃ g' d' k, Group.trim s.tails.length total g d = (.ok (), g', d') ∧
    k = excess g.config.totalSizeLimit total (s.tails.map fun f => (d.content f).length) ∧
    g'.OpenOn (s.drop k) id d' ∧ g'.config = g.config ∧ d'.contents = d.contents ∧
    ∀ p, (∀ j < k, p ≠ s.place ++ [tailName (s.first + j)]) → d'.find? p = d.find? p := by
  -- by induction on the tails, the first of which goes with every step
  obtain ⟨tails, ht⟩ : ∃ tails, s.tails = tails := ⟨_, rfl⟩
  induction tails generalizing g s d total with
  | nil =>
    rw [ht]
    exact ⟨g, d, 0, rfl, rfl, h, rfl, rfl, fun _ _ => rfl⟩
  | cons f rest ih =>
    rw [ht, List.length_cons, Group.trim, List.map_cons, excess]
    split
    · exact ⟨g, d, 0, rfl, rfl, h, rfl, rfl, fun _ _ => rfl⟩
    · obtain ⟨d₁, hremove, h₁, hcontents₁, hothers₁⟩ := h.remove_oldest ht
      have htails : (s.drop 1).tails = rest := by simp [Shelf.drop, ht]
      have hsize : g.tailSize d g.minIndex = (d.content f).length := by
        rw [h.min]
        exact h.tailSize (Shelf.names_oldest ht)
      obtain ⟨g', d', k, htrim, hk, hopen, hconfig, hcontents, hothers⟩ :=
        ih h₁ (total - g.tailSize d g.minIndex) htails
      refine ⟨g', d', k + 1, ?_, ?_, ?_, hconfig, hcontents.trans hcontents₁, fun p hp => ?_⟩
      · simp only [hremove]
        rw [← htails]
        exact htrim
      · simp only [hk, hsize, htails, Disk.content, hcontents₁]
      · rwa [Shelf.drop_drop] at hopen
      · rw [hothers p fun j hj => ?_, hothers₁ p (hp 0 (Nat.succ_pos k))]
        have hne := hp (j + 1) (Nat.succ_lt_succ hj)
        rwa [Nat.add_comm j 1, ← Nat.add_assoc] at hne

theorem length_tails : g.maxIndex - g.minIndex = s.tails.length := by
  rw [h.max, h.min, Shelf.last]
  omega

/-- Once the head is sealed, if that is due, the tails in excess are taken away. -/
theorem checkLimits_of_sealed {g₀ : Group} {d₀ : Disk} (hopen : g₀.isClosed = false)
    (hseal : g₀.sealIfDue d₀ = .ok (g, d)) :
    ∃ g' d', g₀.checkLimits d₀ = (.ok (), g', d') ∧ g'.OpenOn (s.drop (g.surplus s d)) id d' ∧
      g'.config = g.config ∧ d'.contents = d.contents ∧
      ∀ p, (∀ j < g.surplus s d, p ≠ s.place ++ [tailName (s.first + j)]) →
        d'.find? p = d.find? p := by
  rw [sealIfDue] at hseal
  simp only [checkLimits, hopen, hseal, Bool.false_eq_true, if_false, surplus]
  split
  · exact ⟨g, d, rfl, h, rfl, rfl, fun _ _ => rfl⟩
  · rw [h.length_tails]
    obtain ⟨g', d', k, htrim, rfl, htrimmed⟩ := h.trim (g.totalSize d)
    exact ⟨g', d', htrim, htrimmed⟩

end OpenOn

/-! ## Opening -/

section Opening

variable (h : s.On d) (hdir : dir config = s.dir)
include h hdir

theorem exists?_head : d.exists? (headRoute config) = s.head.isSome := by
  rw [headRoute, hdir, Disk.exists?]
  cases hs : s.head with
  | some f => rw [h.resolve (.head hs)]; rfl
  | none =>
    cases hr : d.resolve (s.dir ++ [headName]) with
    | error e => rfl
    | ok r =>
      obtain ⟨q, n⟩ := r
      obtain ⟨hl, hf⟩ := Disk.resolve_eq_ok_iff.1 hr
      rw [Disk.locate_entry h.locate h.isDir isEntry_headName] at hl
      rw [hl.2, h.find?_eq_none fun f hf => by rw [Shelf.names_head_iff, hs] at hf; cases hf] at hf
      cases hf

/-- The numbers that are found are those of the tails. -/
theorem tailIndices_of_on (hlast : s.last ≤ Saturating.ceiling) :
    ∃ indices, tailIndices config d = .ok indices ∧
      ∀ i, i ∈ indices ↔ s.first ≤ i ∧ i < s.last := by
  obtain ⟨names, hnames⟩ : ∃ names, d.list s.dir = .ok names := by
    simp [Disk.list, Disk.resolve_eq_ok_iff.2 ⟨h.locate, h.isDir⟩]
  refine ⟨names.filterMap index?, by simp [tailIndices, hdir, hnames, Except.map], fun i => ?_⟩
  rw [List.mem_filterMap]
  -- the head has no number, and the tails have theirs in their names
  constructor
  · rintro ⟨name, hmem, hi⟩
    obtain ⟨n, hn⟩ := (Disk.mem_list h.locate hnames).1 hmem
    obtain ⟨f, _, hname⟩ := (h.find? _ _).1 hn
    cases hname with
    | head => rw [index?_headName] at hi; cases hi
    | tail hk =>
      have hlt := (List.getElem?_eq_some_iff.1 hk).1
      simp only [Shelf.last] at hlast ⊢
      rw [index?_tailName (by omega)] at hi
      cases hi
      omega
  · rintro ⟨hfirst, hi⟩
    simp only [Shelf.last] at hi hlast
    have hk : i - s.first < s.tails.length := by omega
    have hname := Shelf.Names.tail (List.getElem?_eq_getElem hk)
    rw [Nat.add_sub_cancel' hfirst] at hname
    refine ⟨tailName i, ?_, index?_tailName (by omega)⟩
    exact (Disk.mem_list h.locate hnames).2 ⟨_, (h.find? _ _).2 ⟨_, rfl, hname⟩⟩

/-- The numbers that the group goes on with. -/
theorem numbers_of_on (hlast : s.last ≤ Saturating.ceiling) :
    ∃ indices, tailIndices config d = .ok indices ∧
      (indices.max?.map fun last => Saturating.add last 1).getD 0 = s.renumber.last ∧
      indices.min?.getD s.renumber.last = s.renumber.first := by
  obtain ⟨indices, hindices, hmem⟩ := tailIndices_of_on h hdir hlast
  refine ⟨indices, hindices, ?_⟩
  by_cases ht : s.tails = []
  · have hnil : indices = [] := by
      rw [List.eq_nil_iff_forall_not_mem]
      intro i hi
      have := (hmem i).1 hi
      simp only [Shelf.last, ht, List.length_nil] at this
      omega
    simp [hnil, Shelf.last, Shelf.renumber, ht]
  · -- without gaps, the tails have the numbers from the first up to the last
    have hpos := List.length_pos_iff.2 ht
    have hmax : indices.max? = some (s.last - 1) := by
      rw [List.max?_eq_some_iff]
      refine ⟨(hmem _).2 ?_, fun i hi => ?_⟩
      · simp only [Shelf.last]
        omega
      · have := (hmem i).1 hi
        omega
    have hmin : indices.min? = some s.first := by
      rw [List.min?_eq_some_iff]
      refine ⟨(hmem _).2 ?_, fun i hi => ((hmem i).1 hi).1⟩
      simp only [Shelf.last]
      omega
    have hrenumber : s.renumber = s := by simp [Shelf.renumber, ht]
    rw [hmax, hmin, hrenumber]
    refine ⟨?_, rfl⟩
    simp only [Saturating.add, Shelf.last, Option.map_some, Option.getD_some] at hlast ⊢
    omega

theorem createDirs_of_on : d.createDirs (dir config) = (.ok (), d) := by
  rw [hdir]
  exact Disk.createDirs_of_directory (Disk.resolve_eq_ok_iff.2 ⟨h.locate, h.isDir⟩)

/-- Opening, once there is a head. -/
theorem openIn_of_openFile (d₁ d₂ : Disk) (id : FileId) (hlast : s.last ≤ Saturating.ceiling)
    (hrepair : (if d.exists? (headRoute config) then repairHead config d else pure d) = .ok d₁)
    (hopen : d₁.openFile (headRoute config) = .ok (d₂, id)) :
    openIn config d =
      (.ok ⟨config, some id, (d₂.content id).length, s.renumber.first, s.renumber.last⟩, d₂) := by
  obtain ⟨indices, hindices, hmax, hmin⟩ := numbers_of_on h hdir hlast
  have hof : ofDir config d =
      .ok (⟨config, some id, (d₂.content id).length, s.renumber.first, s.renumber.last⟩, d₂) := by
    rw [← hmin, ← hmax]
    rw [ofDir]
    by_cases hex : d.exists? (headRoute config) = true
    · rw [if_pos hex] at hrepair
      simp only [hindices, hex, hrepair, hopen, bind, Except.bind]
      cases indices.max? <;> rfl
    · rw [if_neg hex] at hrepair
      simp only [hindices, hex, hrepair, hopen, bind, Except.bind]
      cases indices.max? <;> rfl
  simp only [openIn, createDirs_of_on h hdir, hof]

/-- Opening repairs the head that was left. -/
theorem openIn_of_head {bs : Bytes} (hlast : s.last ≤ Saturating.ceiling) (hid : s.head = some id)
    (hbs : Record.repaired config.maxRecordSize (d.content id) = bs) :
    ∃ g', openIn config d = (.ok g', d.setContent id bs) ∧
      g'.OpenOn s.renumber id (d.setContent id bs) ∧ g'.config = config := by
  have hresolve : d.resolve (headRoute config) = .ok (s.place ++ [headName], .file id) := by
    rw [headRoute, hdir]
    exact h.resolve (.head hid)
  refine ⟨_, openIn_of_openFile h hdir (d.setContent id bs) _ id hlast ?_ ?_,
    ⟨(h.setContent id bs).renumber, hdir, rfl, hid, rfl, rfl, rfl⟩, rfl⟩
  · rw [exists?_head h hdir, hid, Option.isSome_some, if_pos rfl, repairHead,
      Disk.fileAt_of_file hresolve, ← hbs]
  · obtain ⟨hl, hf⟩ := Disk.resolve_eq_ok_iff.1 hresolve
    exact Disk.openFile_of_file (Disk.locate_mono (Disk.keepsDirs_setContent d id bs) hl) hf

/-- Opening creates the head that is missing. -/
theorem openIn_of_none (hlast : s.last ≤ Saturating.ceiling) (hnone : s.head = none)
    (hadm : s.dir.Admits headName) :
    ∃ g', openIn config d = (.ok g', d.create (s.place ++ [headName])) ∧
      g'.OpenOn (s.renumber.withHead d.contents.length) d.contents.length
        (d.create (s.place ++ [headName])) ∧
      g'.config = config := by
  refine ⟨_, openIn_of_openFile h hdir d _ d.contents.length hlast ?_ ?_,
    ⟨h.renumber.create hnone hadm, hdir, rfl, rfl, rfl, rfl, rfl⟩, rfl⟩
  · rw [exists?_head h hdir, hnone]
    rfl
  · refine Disk.openFile_of_none ?_ (h.find?_eq_none fun f hf => ?_)
    · rw [headRoute, hdir, Disk.locate_entry h.locate h.isDir isEntry_headName]
      exact ⟨hadm, rfl⟩
    · rw [Shelf.names_head_iff, hnone] at hf
      cases hf

/-- Without a name that it can have, the head is not created, nor is anything else done. -/
theorem openIn_error (hlast : s.last ≤ Saturating.ceiling) (hnone : s.head = none)
    (hadm : ¬s.dir.Admits headName) : ∃ e, openIn config d = (.error e, d) := by
  obtain ⟨indices, hindices, -⟩ := numbers_of_on h hdir hlast
  have hopen : ∃ e, d.openFile (headRoute config) = .error e := by
    rw [headRoute, hdir, Disk.openFile]
    cases hl : d.locate (s.dir ++ [headName]) with
    | error e => exact ⟨e, rfl⟩
    | ok q =>
      rw [Disk.locate_entry h.locate h.isDir isEntry_headName] at hl
      exact absurd hl.1 hadm
  obtain ⟨e, he⟩ := hopen
  refine ⟨e, ?_⟩
  have hof : ofDir config d = .error e := by
    rw [ofDir]
    simp only [hindices, exists?_head h hdir, hnone, he, bind, Except.bind, pure, Except.pure,
      Option.isSome_none, Bool.false_eq_true, if_false]
  simp only [openIn, createDirs_of_on h hdir, hof]

/-- Opening succeeds, if the head is there or can be created. -/
theorem openIn_ok (hlast : s.last ≤ Saturating.ceiling) (hadm : s.dir.Admits headName) :
    ∃ g' d', openIn config d = (.ok g', d') ∧ g'.isClosed = false := by
  cases hhead : s.head with
  | some id =>
    obtain ⟨g', hopen, hid, -⟩ := openIn_of_head h hdir hlast hhead rfl
    exact ⟨g', _, hopen, hid.isClosed⟩
  | none =>
    obtain ⟨g', hopen, hid, -⟩ := openIn_of_none h hdir hlast hhead hadm
    exact ⟨g', _, hopen, hid.isClosed⟩

end Opening

end Group

end ConsensusCore
